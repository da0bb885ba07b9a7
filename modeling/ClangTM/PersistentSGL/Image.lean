import ClangTM.Bytes.Block

/-!
# The image of the persistent backend

`PersistentSGL_runtime.cpp` keeps an image of the symbols of a program in a mapped file.
`do_tm_init` lays the symbols out one after another behind a header. It restores them if the
file has an image of as many symbols, and makes the image otherwise. `real_tm_write_*` stores
its value to memory and to the place in the file that `addr_to_file_off` finds by a binary
search over the symbols, which are kept in the order of the table.

The mapping is apart from the rest of memory. What `do_tm_init` and the writes do not touch is
left out: the heap behind the symbols and its word in the header. Numbers are not bounded: for
the tables that are `Listed` neither the sums of sizes nor those of indices overflow.
-/

namespace PersistentSGL

open Bytes

abbrev Memory := BitVec 64 → BitVec 8

structure Symbol where
  addr : BitVec 64
  size : ℕ
  fits : addr.toNat + size < 2 ^ 64

structure SymbolRange where
  addrStart : ℕ
  addrEnd : ℕ
  fileOff : ℕ

/-- The file: its size, the magic number, version and count of its header, and its bytes. -/
structure File where
  size : ℕ
  header : ℕ × ℕ × ℕ
  image : Memory

structure State where
  mem : Memory
  file : File
  symRanges : List SymbolRange

def hdrSize : ℕ := 24

def persistHeapSize : ℕ := 64 * 1024 * 1024

def dataSize : List Symbol → ℕ
  | [] => 0
  | y :: table => y.size + dataSize table

/-- The symbols and their places in the file, from `off` on. -/
def layout (off : ℕ) : List Symbol → List (Symbol × ℕ)
  | [] => []
  | y :: table => (y, off) :: layout (off + y.size) table

def inMem (p : Symbol × ℕ) : BitVec 64 := p.1.addr

def inFile (p : Symbol × ℕ) : BitVec 64 := BitVec.ofNat 64 p.2

/-- The loops of `memcpy` over the symbols, to the places `dst` in `m` from the places `src`. -/
def copySymbols (dst src : Symbol × ℕ → BitVec 64) (old : Memory) (ps : List (Symbol × ℕ))
    (m : Memory) : Memory :=
  ps.foldl (fun m p => store m (dst p) (load old (src p) p.1.size)) m

def mmapSize (table : List Symbol) : ℕ := hdrSize + dataSize table + persistHeapSize

def header (table : List Symbol) : ℕ × ℕ × ℕ := (0x53524550524D54, 2, table.length)

def symRanges (table : List Symbol) : List SymbolRange :=
  (layout hdrSize table).map fun p => ⟨p.1.addr.toNat, p.1.addr.toNat + p.1.size, p.2⟩

def tmInit (table : List Symbol) (s : State) : State :=
  if table.isEmpty then s
  else if mmapSize table ≤ s.file.size ∧ s.file.header = header table then
    { mem := copySymbols inMem inFile s.file.image (layout hdrSize table) s.mem
      file := { s.file with size := mmapSize table }
      symRanges := symRanges table }
  else
    { mem := s.mem
      file :=
        { size := mmapSize table
          header := header table
          image := copySymbols inFile inMem s.mem (layout hdrSize table) s.file.image }
      symRanges := symRanges table }

def search (rs : List SymbolRange) (addr : ℕ) : ℕ → ℤ → ℤ → Option ℕ
  | 0, _, _ => none
  | fuel + 1, lo, hi =>
      if lo ≤ hi then
        let mid := (lo + hi) / 2
        match rs[mid.toNat]? with
        | none => none
        | some r =>
            if addr < r.addrStart then search rs addr fuel lo (mid - 1)
            else if r.addrEnd ≤ addr then search rs addr fuel (mid + 1) hi
            else some (r.fileOff + (addr - r.addrStart))
      else none

/-- `addr_to_file_off`; the interval gets smaller in every turn. -/
def addrToFileOff (rs : List SymbolRange) (addr : ℕ) : Option ℕ :=
  search rs addr (rs.length + 1) 0 (rs.length - 1)

inductive Hook
  | i1 | i2 | i4 | i8 | f4 | f8 | ptr

def Hook.size : Hook → ℕ
  | .i1 => 1
  | .i2 => 2
  | .i4 | .f4 => 4
  | .i8 | .f8 | .ptr => 8

/-- A call of one of them, with the bytes of its value. -/
structure Write where
  hook : Hook
  addr : BitVec 64
  val : List (BitVec 8)
  length_val : val.length = hook.size

/-- The body of the functions `real_tm_write_*`, which differ in the type of the value only. -/
def realTmWrite (s : State) (w : Write) : State :=
  let image :=
    match addrToFileOff s.symRanges w.addr.toNat with
    | none => s.file.image
    | some off => store s.file.image (BitVec.ofNat 64 off) w.val
  { s with mem := store s.mem w.addr w.val, file := { s.file with image := image } }

def Write.Inside (w : Write) (table : List Symbol) : Prop :=
  ∃ y ∈ table, y.addr.toNat ≤ w.addr.toNat ∧
    w.addr.toNat + w.val.length ≤ y.addr.toNat + y.size

def Write.Outside (w : Write) (table : List Symbol) : Prop :=
  ∀ y ∈ table, w.addr.toNat < y.addr.toNat ∨ y.addr.toNat + y.size ≤ w.addr.toNat

/-- The table lists the symbols by their addresses, `int` can count them, and the size of the
file does not overflow. -/
structure Listed (table : List Symbol) : Prop where
  ascending : table.Pairwise fun y z => y.addr.toNat + y.size ≤ z.addr.toNat
  count : table.length ≤ 2 ^ 30
  size : mmapSize table < 2 ^ 64

section Search

variable {rs : List SymbolRange} {addr : ℕ}

theorem mem_of_search {off fuel : ℕ} {lo hi : ℤ} (h : search rs addr fuel lo hi = some off) :
    ∃ r ∈ rs, r.addrStart ≤ addr ∧ addr < r.addrEnd := by
  induction fuel generalizing lo hi with
  | zero => cases h
  | succ fuel ih =>
      rw [search] at h
      split at h
      · dsimp only at h
        split at h
        · cases h
        · next r hr =>
            split at h
            · exact ih h
            · split at h
              · exact ih h
              · exact ⟨r, List.mem_of_getElem? hr, by omega, by omega⟩
      · cases h

theorem search_eq_some (hle : ∀ r ∈ rs, r.addrStart ≤ r.addrEnd)
    (hasc : rs.Pairwise fun r r' => r.addrEnd ≤ r'.addrStart) {i : ℕ} (hi : i < rs.length)
    (hstart : rs[i].addrStart ≤ addr) (hend : addr < rs[i].addrEnd) {fuel : ℕ} {a b : ℤ}
    (ha : 0 ≤ a) (hai : a ≤ i) (hib : i ≤ b) (hb : b < rs.length) (hfuel : b - a < fuel) :
    search rs addr fuel a b = some (rs[i].fileOff + (addr - rs[i].addrStart)) := by
  induction fuel generalizing a b with
  | zero => omega
  | succ fuel ih =>
      obtain ⟨n, hn⟩ : ∃ n : ℕ, (a + b) / 2 = n := ⟨_, (Int.toNat_of_nonneg (by omega)).symm⟩
      have hlen : n < rs.length := by omega
      have hr := hle _ (List.getElem_mem hlen)
      rw [search, if_pos (by omega)]
      simp only [hn, Int.toNat_natCast, List.getElem?_eq_getElem hlen]
      rcases Nat.lt_trichotomy i n with hlt | rfl | hlt
      · have := List.pairwise_iff_getElem.1 hasc i n hi hlen hlt
        rw [if_pos (by omega)]
        exact ih ha hai (by omega) (by omega) (by omega)
      · rw [if_neg (by omega), if_neg (by omega)]
      · have := List.pairwise_iff_getElem.1 hasc n i hlen hi hlt
        rw [if_neg (by omega), if_pos (by omega)]
        exact ih (by omega) (by omega) hib hb (by omega)

end Search

section Layout

variable {table : List Symbol} {off : ℕ} {p : Symbol × ℕ}

theorem map_fst_layout : (layout off table).map Prod.fst = table := by
  induction table generalizing off with
  | nil => rfl
  | cons y table ih => rw [layout, List.map_cons, ih]

theorem le_of_mem_layout (hp : p ∈ layout off table) :
    off ≤ p.2 ∧ p.2 + p.1.size ≤ off + dataSize table := by
  induction table generalizing off with
  | nil => cases hp
  | cons y table ih =>
      have hsum : dataSize (y :: table) = y.size + dataSize table := rfl
      rcases List.mem_cons.1 hp with rfl | hp
      · exact ⟨Nat.le_refl _, by simp only; omega⟩
      · have := ih hp
        omega

theorem pairwise_layout :
    (layout off table).Pairwise fun p q => p.2 + p.1.size ≤ q.2 := by
  induction table generalizing off with
  | nil => exact .nil
  | cons y table ih =>
      exact List.pairwise_cons.2 ⟨fun q hq => (le_of_mem_layout hq).1, ih⟩

/-- The blocks of the symbols at the places `f` follow one another. -/
structure Placed (f : Symbol × ℕ → BitVec 64) (ps : List (Symbol × ℕ)) : Prop where
  fits : ∀ p ∈ ps, (f p).toNat + p.1.size < 2 ^ 64
  order : ps.Pairwise fun p q => (f p).toNat + p.1.size ≤ (f q).toNat

theorem Listed.inMem (h : Listed table) : Placed inMem (layout off table) where
  fits p _ := p.1.fits
  order := by
    have hmap : (layout off table).map Prod.fst = table := map_fst_layout
    have hasc := h.ascending
    rw [← hmap, List.pairwise_map] at hasc
    exact hasc

theorem Listed.toNat_inFile (h : Listed table) (hp : p ∈ layout hdrSize table) :
    (inFile p).toNat = p.2 ∧ p.2 + p.1.size < 2 ^ 64 := by
  have hle := (le_of_mem_layout hp).2
  have hsize := h.size
  rw [mmapSize] at hsize
  exact ⟨Nat.mod_eq_of_lt (by omega), by omega⟩

theorem Listed.inFile (h : Listed table) : Placed inFile (layout hdrSize table) where
  fits p hp := by
    obtain ⟨heq, hlt⟩ := h.toNat_inFile hp
    rwa [heq]
  order := by
    refine pairwise_layout.imp_of_mem fun hp hq hle => ?_
    rwa [(h.toNat_inFile hp).1, (h.toNat_inFile hq).1]

variable {dst src : Symbol × ℕ → BitVec 64} {ps : List (Symbol × ℕ)} {m old : Memory}

theorem load_copySymbols_below (h : Placed dst ps) {a : BitVec 64} {n : ℕ}
    (ha : a.toNat + n < 2 ^ 64) (hlt : ∀ q ∈ ps, a.toNat + n ≤ (dst q).toNat) :
    load (copySymbols dst src old ps m) a n = load m a n := by
  induction ps generalizing m with
  | nil => rfl
  | cons q ps ih =>
      have hq := h.fits q List.mem_cons_self
      have hps : Placed dst ps :=
        ⟨fun p hp => h.fits p (List.mem_cons_of_mem _ hp), (List.pairwise_cons.1 h.order).2⟩
      refine (ih hps fun p hp => hlt p (List.mem_cons_of_mem _ hp)).trans ?_
      refine load_store_of_apart ?_ (Nat.le_of_lt ha) (.inl (hlt q List.mem_cons_self))
      rw [length_load]
      exact Nat.le_of_lt hq

theorem load_copySymbols (h : Placed dst ps) (hp : p ∈ ps) :
    load (copySymbols dst src old ps m) (dst p) p.1.size = load old (src p) p.1.size := by
  induction ps generalizing m with
  | nil => cases hp
  | cons q ps ih =>
      obtain ⟨hq, horder⟩ := List.pairwise_cons.1 h.order
      have hps : Placed dst ps := ⟨fun p hp => h.fits p (List.mem_cons_of_mem _ hp), horder⟩
      rcases List.mem_cons.1 hp with rfl | hp
      · have hfit := h.fits p List.mem_cons_self
        refine (load_copySymbols_below hps hfit hq).trans ?_
        have hlen : (load old (src p) p.1.size).length = p.1.size := length_load
        have hstore : load (store m (dst p) (load old (src p) p.1.size)) (dst p)
            (load old (src p) p.1.size).length = load old (src p) p.1.size :=
          load_store (by rw [hlen]; omega)
        rwa [hlen] at hstore
      · exact ih hps hp

theorem Placed.load_store_of_ne (h : Placed dst ps) {q : Symbol × ℕ} (hp : p ∈ ps) (hq : q ∈ ps)
    (hne : q ≠ p) {k : ℕ} {bs : List (BitVec 8)} (hk : k + bs.length ≤ p.1.size) :
    load (store m (dst p + BitVec.ofNat 64 k) bs) (dst q) q.1.size =
      load m (dst q) q.1.size := by
  have hpfit := h.fits p hp
  have hqfit := h.fits q hq
  have hat : (dst p + BitVec.ofNat 64 k).toNat = (dst p).toNat + k := by
    rw [BitVec.toNat_add, BitVec.toNat_ofNat, Nat.mod_eq_of_lt (a := k) (by omega),
      Nat.mod_eq_of_lt (by omega)]
  have hor : (dst q).toNat + q.1.size ≤ (dst p).toNat ∨
      (dst p).toNat + p.1.size ≤ (dst q).toNat := by
    obtain ⟨i, hi, rfl⟩ := List.getElem_of_mem hp
    obtain ⟨j, hj, rfl⟩ := List.getElem_of_mem hq
    rcases Nat.lt_trichotomy i j with hlt | rfl | hlt
    · exact .inr (List.pairwise_iff_getElem.1 h.order i j hi hj hlt)
    · exact absurd rfl hne
    · exact .inl (List.pairwise_iff_getElem.1 h.order j i hj hi hlt)
  exact load_store_of_apart (by omega) (by omega) (by omega)

end Layout

/-- The image of every symbol equals its memory. -/
def InStep (table : List Symbol) (s : State) : Prop :=
  ∀ p ∈ layout hdrSize table,
    load s.file.image (inFile p) p.1.size = load s.mem (inMem p) p.1.size

structure Kept (table : List Symbol) (s : State) : Prop where
  ranges : s.symRanges = symRanges table
  file : table = [] ∨ mmapSize table ≤ s.file.size ∧ s.file.header = header table
  inStep : InStep table s

section Kept

variable {table : List Symbol} {s : State} {w : Write}

theorem Listed.kept_tmInit (h : Listed table) (hs : s.symRanges = []) :
    Kept table (tmInit table s) := by
  unfold tmInit
  split
  · next hempty =>
      obtain rfl := List.isEmpty_iff.1 hempty
      exact ⟨hs, .inl rfl, fun p hp => by cases hp⟩
  · split
    · next hfile =>
        exact ⟨rfl, .inr ⟨Nat.le_refl _, hfile.2⟩, fun p hp => (load_copySymbols h.inMem hp).symm⟩
    · exact ⟨rfl, .inr ⟨Nat.le_refl _, rfl⟩, fun p hp => load_copySymbols h.inFile hp⟩

theorem Listed.addrToFileOff_eq (h : Listed table) {p : Symbol × ℕ}
    (hp : p ∈ layout hdrSize table) {k : ℕ} (hk : k < p.1.size) :
    addrToFileOff (symRanges table) (p.1.addr.toNat + k) = some (p.2 + k) := by
  obtain ⟨i, hi, rfl⟩ := List.getElem_of_mem hp
  have hlen : i < (symRanges table).length := by rwa [symRanges, List.length_map]
  have hget : (symRanges table)[i] = ⟨_, _, _⟩ := List.getElem_map _
  have hle : ∀ r ∈ symRanges table, r.addrStart ≤ r.addrEnd := by
    intro r hr
    obtain ⟨q, -, rfl⟩ := List.mem_map.1 hr
    exact Nat.le_add_right _ _
  rw [addrToFileOff, search_eq_some hle (List.pairwise_map.2 h.inMem.order) hlen
    (by rw [hget]; exact Nat.le_add_right _ _) (by rw [hget]; exact Nat.add_lt_add_left hk _)
    (Int.le_refl 0) (by omega) (by omega) (by omega) (by omega), hget, Nat.add_sub_cancel_left]

theorem Kept.write (hk : Kept table s) (h : Listed table) (hw : w.Inside table) :
    Kept table (realTmWrite s w) := by
  refine ⟨hk.ranges, hk.file, fun q hq => ?_⟩
  obtain ⟨y, hy, hlo, hhi⟩ := hw
  obtain ⟨p, hp, rfl⟩ : ∃ p ∈ layout hdrSize table, p.1 = y :=
    List.mem_map.1 (map_fst_layout.symm ▸ hy)
  obtain ⟨k, hle⟩ := Nat.exists_eq_add_of_le hlo
  have hpos : 0 < w.val.length := by
    rw [w.length_val]
    cases w.hook <;> decide
  have haddr : w.addr = inMem p + BitVec.ofNat 64 k := by
    have hcast := congrArg (BitVec.ofNat 64) hle
    rwa [BitVec.ofNat_add, BitVec.ofNat_toNat, BitVec.ofNat_toNat, BitVec.setWidth_eq,
      BitVec.setWidth_eq] at hcast
  have hplace : BitVec.ofNat 64 (p.2 + k) = inFile p + BitVec.ofNat 64 k := BitVec.ofNat_add ..
  have hoff := h.addrToFileOff_eq hp (k := k) (by omega)
  simp only [realTmWrite, hk.ranges, hle, hoff, hplace]
  rw [haddr]
  by_cases hne : q = p
  · subst hne
    exact load_store_congr (h.inFile.fits q hq) q.1.fits (by omega) (hk.inStep q hq)
  · rw [h.inFile.load_store_of_ne hp hq hne (by omega),
      h.inMem.load_store_of_ne hp hq hne (by omega)]
    exact hk.inStep q hq

theorem Kept.writes (hk : Kept table s) (h : Listed table) {ws : List Write}
    (hws : ∀ w ∈ ws, w.Inside table) : Kept table (ws.foldl realTmWrite s) := by
  induction ws generalizing s with
  | nil => exact hk
  | cons w ws ih =>
      exact ih (hk.write h (hws w List.mem_cons_self)) fun v hv => hws v (List.mem_cons_of_mem _ hv)

theorem Kept.image_of_outside (hk : Kept table s) (hw : w.Outside table) :
    (realTmWrite s w).file.image = s.file.image := by
  simp only [realTmWrite, hk.ranges]
  split
  · rfl
  · next off hoff =>
      obtain ⟨r, hr, hlo, hhi⟩ := mem_of_search hoff
      obtain ⟨p, hp, rfl⟩ := List.mem_map.1 hr
      have hmem := List.mem_map_of_mem (f := Prod.fst) hp
      rw [map_fst_layout] at hmem
      have := hw p.1 hmem
      dsimp only at hlo hhi
      omega

theorem Kept.restored (hk : Kept table s) (h : Listed table) (m : Memory) {y : Symbol}
    (hy : y ∈ table) :
    load (tmInit table ⟨m, s.file, []⟩).mem y.addr y.size = load s.mem y.addr y.size := by
  obtain ⟨p, hp, rfl⟩ : ∃ p ∈ layout hdrSize table, p.1 = y :=
    List.mem_map.1 (map_fst_layout.symm ▸ hy)
  have hne : table ≠ [] := List.ne_nil_of_mem hy
  rw [tmInit, if_neg (by simpa using hne), if_pos (hk.file.resolve_left hne)]
  exact (load_copySymbols h.inMem hp).trans (hk.inStep p hp)

end Kept

/-- For a table in the order of the addresses: after `tm_init` and any writes inside symbols the
image of every symbol equals its memory, and the next `tm_init` restores it; a write that does
not start in a symbol leaves the image. -/
theorem image_in_step {table : List Symbol} (h : Listed table) (m : Memory) (file : File)
    {ws : List Write} (hws : ∀ w ∈ ws, w.Inside table) :
    let s := ws.foldl realTmWrite (tmInit table ⟨m, file, []⟩)
    InStep table s ∧
    (∀ m', ∀ y ∈ table,
      load (tmInit table ⟨m', s.file, []⟩).mem y.addr y.size = load s.mem y.addr y.size) ∧
    ∀ w : Write, w.Outside table → (realTmWrite s w).file.image = s.file.image := by
  have hk := (h.kept_tmInit (s := ⟨m, file, []⟩) rfl).writes h hws
  exact ⟨hk.inStep, fun m' y hy => hk.restored h m' hy, fun w hw => hk.image_of_outside hw⟩

def lowSymbol : Symbol := ⟨104, 8, by decide⟩

def highSymbol : Symbol := ⟨200, 8, by decide⟩

def lowWrite : Write := ⟨.i4, 104, [1, 2, 3, 4], rfl⟩

def noFile : File := ⟨0, (0, 0, 0), fun _ => 0⟩

theorem image_in_step_low :
    InStep [lowSymbol, highSymbol]
      (realTmWrite (tmInit [lowSymbol, highSymbol] ⟨fun _ => 0, noFile, []⟩) lowWrite) := by
  have hlisted : Listed [lowSymbol, highSymbol] :=
    ⟨by simp [lowSymbol, highSymbol], by simp, by decide⟩
  have hinside : ∀ w ∈ [lowWrite], w.Inside [lowSymbol, highSymbol] := by
    intro w hw
    obtain rfl := List.mem_singleton.1 hw
    exact ⟨lowSymbol, List.mem_cons_self, by decide, by decide⟩
  exact (image_in_step hlisted (fun _ => 0) noFile hinside).1

/-- In a table in another order the search misses a symbol, and its image stays behind. -/
theorem image_behind :
    lowWrite.Inside [highSymbol, lowSymbol] ∧
      lowSymbol.addr.toNat + lowSymbol.size ≤ highSymbol.addr.toNat ∧
      ¬InStep [highSymbol, lowSymbol]
        (realTmWrite (tmInit [highSymbol, lowSymbol] ⟨fun _ => 0, noFile, []⟩) lowWrite) := by
  refine ⟨⟨lowSymbol, by simp, by decide, by decide⟩, by decide, fun h => ?_⟩
  have hlow := h (lowSymbol, 32) (by simp [layout, hdrSize, highSymbol])
  revert hlow
  decide

end PersistentSGL
