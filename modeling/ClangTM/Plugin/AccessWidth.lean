import ClangTM.Plugin.View

/-!
# Loads and stores through hooks

`emitTMRead` and `emitTMWrite` replace a load or a store by calls of hooks, by the type of the
value. A value is its bits, lowest first. The hooks fit the types in `Ty.Hooked`: an integer has
one of the widths that a hook has, and a vector has neither booleans, which are packed in memory,
nor pointers, whose size the code takes to be one byte.
-/

namespace Plugin

open Bytes

inductive Scalar
  | int (bits : ℕ)
  | half | float | double | x86Fp80 | ptr
deriving DecidableEq

/-- First-class types: scalars and fixed vectors of them. -/
inductive Ty
  | scalar (s : Scalar)
  | vec (num : ℕ) (elem : Scalar)

def Scalar.bits : Scalar → ℕ
  | .int bits => bits
  | .half => 16
  | .float => 32
  | .double | .ptr => 64
  | .x86Fp80 => 80

/-- The elements of a vector are packed. -/
def Ty.bits : Ty → ℕ
  | .scalar s => s.bits
  | .vec num elem => elem.bits * num

def storeSize (bits : ℕ) : ℕ := (bits + 7) / 8

/-- The size of a temporary: the store size, rounded up to the alignment. -/
def allocSize (bits : ℕ) : ℕ :=
  let n := storeSize bits
  let align :=
    if n ≤ 1 then 1 else if n ≤ 2 then 2 else if n ≤ 4 then 4 else if n ≤ 8 then 8 else 16
  (n + align - 1) / align * align

def bitsOf (bs : List Byte) : List Bool := bs.flatMap fun b => (List.range 8).map b.getLsbD

/-- A byte with these bits; those that are missing are zero. -/
def byteOfBits (v : List Bool) : Byte :=
  BitVec.ofNat 8 ((v.take 8).foldr (fun b n => 2 * n + b.toNat) 0)

def bytesOf : ℕ → List Bool → List Byte
  | 0, _ => []
  | n + 1, v => byteOfBits v :: bytesOf n (v.drop 8)

def Ty.load (ty : Ty) (m : Addr → Byte) (p : Addr) : List Bool :=
  (bitsOf (Bytes.load m p (storeSize ty.bits))).take ty.bits

/-- What the emitted read has yielded, and for each temporary the bytes that have been stored from
its start on and its size. -/
structure Out where
  val : List Bool
  view : View
  temps : List (ℕ × ℕ) := []

def readHook (p : Addr) (n : ℕ) (v : View) : Out where
  val := bitsOf (load v.mem p n)
  view := v.read p n

/-- The bytes that the hook for a wide integer moves: `tm_read_i16`, `tm_read_i32` or
`tm_read_i64`. -/
def wideHook (bits : ℕ) : ℕ := if bits ≤ 128 then 16 else if bits ≤ 256 then 32 else 64

/-- Reads that are made one after the other and joined. -/
def readEach (f : ℕ → View → Out) (v : View) : ℕ → Out
  | 0 => ⟨[], v, []⟩
  | n + 1 =>
      let o := readEach f v n
      let e := f n o.view
      ⟨o.val ++ e.val, e.view, o.temps ++ e.temps⟩

/-- The fallback of `emitTMRead`: the bytes are read one by one. -/
def readBytes (p : Addr) (n : ℕ) (v : View) : Out :=
  readEach (fun i => readHook (p + BitVec.ofNat 64 i) 1) v n

/-- `emitTMRead` for a scalar; `junk` is what is in memory after the bytes of a temporary. -/
def Scalar.emitTMRead (junk : List Byte) (p : Addr) (v : View) : Scalar → Out
  | .int 1 =>
      let o := readHook p 1 v
      { o with val := o.val.take 1 }
  | .int 8 => readHook p 1 v
  | .int 16 => readHook p 2 v
  | .int 32 => readHook p 4 v
  | .int 64 => readHook p 8 v
  | .int bits =>
      { val := (bitsOf ((load v.mem p (wideHook bits) ++ junk).take (storeSize bits))).take bits
        view := v.read p (wideHook bits)
        temps := [(wideHook bits, allocSize bits)] }
  | .float => readHook p 4 v
  | .double | .ptr => readHook p 8 v
  | .half => readBytes p 2 v
  | .x86Fp80 => readBytes p 10 v

/-- `getScalarSizeInBits() / 8`, which is 0 for a pointer, and at least 1. -/
def Scalar.elemSizeBytes (s : Scalar) : ℕ :=
  let n := (if s = .ptr then 0 else s.bits) / 8
  if n = 0 then 1 else n

/-- The address of an element; the offset is computed in 32 bits. -/
def elemPtr (p : Addr) (elem : Scalar) (i : ℕ) : Addr :=
  p + BitVec.ofNat 64 (i * elem.elemSizeBytes % 2 ^ 32)

def Ty.emitTMRead (junk : List Byte) (p : Addr) (v : View) : Ty → Out
  | .scalar s => s.emitTMRead junk p v
  | .vec num elem => readEach (fun i v => elem.emitTMRead junk (elemPtr p elem i) v) v num

def writeBytes (p : Addr) (val : List Bool) (n : ℕ) : View → View :=
  forTo (fun i v => v.write (p + BitVec.ofNat 64 i) [byteOfBits (val.drop (8 * i))]) n

def Scalar.emitTMWrite (junk : List Byte) (p : Addr) (val : List Bool) (v : View) : Scalar → View
  | .int 1 => v.write p (bytesOf 1 val)
  | .int 8 => v.write p (bytesOf 1 val)
  | .int 16 => v.write p (bytesOf 2 val)
  | .int 32 => v.write p (bytesOf 4 val)
  | .int 64 => v.write p (bytesOf 8 val)
  | .int bits => v.write p ((bytesOf (storeSize bits) val ++ junk).take (wideHook bits))
  | .float => v.write p (bytesOf 4 val)
  | .double | .ptr => v.write p (bytesOf 8 val)
  | .half => writeBytes p val 2 v
  | .x86Fp80 => writeBytes p val 10 v

def Ty.emitTMWrite (junk : List Byte) (p : Addr) (val : List Bool) (v : View) : Ty → View
  | .scalar s => s.emitTMWrite junk p val v
  | .vec num elem => forTo (fun i v => elem.emitTMWrite junk (elemPtr p elem i)
      ((val.drop (elem.bits * i)).take elem.bits) v) num v

def Scalar.Hooked : Scalar → Prop
  | .int bits => bits ∈ [1, 8, 16, 32, 64, 128, 256, 512]
  | _ => True

def Ty.Hooked : Ty → Prop
  | .scalar s => s.Hooked
  | .vec num elem => elem.Hooked ∧ elem ≠ .int 1 ∧ elem ≠ .ptr ∧ num * elem.elemSizeBytes ≤ 2 ^ 32

section Lemmas

variable {junk : List Byte} {p : Addr} {v : View} {s : Scalar}

theorem bitsOf_append (bs cs : List Byte) : bitsOf (bs ++ cs) = bitsOf bs ++ bitsOf cs :=
  List.flatMap_append

theorem length_bitsOf (bs : List Byte) : (bitsOf bs).length = 8 * bs.length := by
  induction bs with
  | nil => rfl
  | cons b bs ih =>
      rw [← List.singleton_append, bitsOf_append, List.length_append, ih, List.length_append]
      simp [bitsOf, Nat.mul_add]

theorem length_bytesOf (n : ℕ) (val : List Bool) : (bytesOf n val).length = n := by
  induction n generalizing val with
  | zero => rfl
  | succ n ih => rw [bytesOf, List.length_cons, ih]

theorem bytesOf_add (k n : ℕ) (val : List Bool) :
    bytesOf (k + n) val = bytesOf k val ++ bytesOf n (val.drop (8 * k)) := by
  induction k generalizing val with
  | zero => simp [bytesOf]
  | succ k ih =>
      rw [Nat.succ_add, bytesOf, ih, bytesOf, List.cons_append, List.drop_drop, Nat.mul_succ,
        Nat.add_comm 8]

theorem bytesOf_take (n : ℕ) (val : List Bool) : bytesOf n (val.take (8 * n)) = bytesOf n val := by
  induction n generalizing val with
  | zero => rfl
  | succ n ih =>
      have hfirst : (val.take (8 * (n + 1))).take 8 = val.take 8 := by
        rw [List.take_take, Nat.min_eq_left (by omega)]
      rw [bytesOf, bytesOf, List.drop_take, show 8 * (n + 1) - 8 = 8 * n by omega, ih]
      simp only [byteOfBits, hfirst]

/-- The read of `n` bytes, `bits` of which are in the value. -/
structure ReadsAs (p : Addr) (n bits : ℕ) (v : View) (o : Out) : Prop where
  val : o.val = (bitsOf (load v.mem p n)).take bits
  view : o.view = v.read p n
  temps : ∀ t ∈ o.temps, t.1 ≤ t.2

theorem take_bitsOf_load (m : Addr → Byte) (p : Addr) (n : ℕ) :
    (bitsOf (load m p n)).take (8 * n) = bitsOf (load m p n) :=
  List.take_of_length_le (by simp [length_bitsOf])

theorem readHook_reads (p : Addr) (n : ℕ) (v : View) : ReadsAs p n (8 * n) v (readHook p n v) where
  val := (take_bitsOf_load v.mem p n).symm
  view := rfl
  temps := nofun

theorem readEach_reads {f : ℕ → View → Out} {size n : ℕ} (hf : ∀ i < n, ∀ v,
    ReadsAs (p + BitVec.ofNat 64 (size * i)) size (8 * size) v (f i v)) :
    ReadsAs p (size * n) (8 * (size * n)) v (readEach f v n) := by
  induction n with
  | zero => exact ⟨rfl, (v.read_zero p).symm, nofun⟩
  | succ n ih =>
      have ho := ih fun i hi => hf i (Nat.lt_succ_of_lt hi)
      have he := hf n (Nat.lt_succ_self n) (readEach f v n).view
      rw [Nat.mul_succ]
      refine ⟨?_, ?_, fun t ht => (List.mem_append.1 ht).elim (ho.temps t) (he.temps t)⟩
      · show (readEach f v n).val ++ (f n (readEach f v n).view).val = _
        rw [ho.val, he.val, ho.view, take_bitsOf_load, take_bitsOf_load, take_bitsOf_load, load_add,
          bitsOf_append]
        rfl
      · show (f n (readEach f v n).view).view = _
        rw [he.view, ho.view, View.read_add]

theorem forTo_writes {val : List Bool} {f : ℕ → View → View} {size n : ℕ}
    (hf : ∀ i < n, ∀ v, f i v = v.write (p + BitVec.ofNat 64 (size * i))
      (bytesOf size (val.drop (8 * (size * i))))) :
    forTo f n v = v.write p (bytesOf (size * n) val) := by
  induction n with
  | zero => exact (v.write_nil p).symm
  | succ n ih =>
      rw [forTo, ih fun i hi => hf i (Nat.lt_succ_of_lt hi), hf n (Nat.lt_succ_self n),
        Nat.mul_succ, bytesOf_add, View.write_append, length_bytesOf]

theorem bytes_emit (n : ℕ) : ReadsAs p n (8 * n) v (readBytes p n v) ∧
    ∀ val, writeBytes p val n v = v.write p (bytesOf n val) := by
  have hread : ReadsAs p (1 * n) (8 * (1 * n)) v (readBytes p n v) :=
    readEach_reads fun i _ v' => by rw [Nat.one_mul]; exact readHook_reads _ 1 v'
  have hwrite : ∀ val, writeBytes p val n v = v.write p (bytesOf (1 * n) val) := fun val =>
    forTo_writes fun i _ v' => by rw [Nat.one_mul]; rfl
  rw [Nat.one_mul] at hread
  simp only [Nat.one_mul] at hwrite
  exact ⟨hread, hwrite⟩

theorem Scalar.Hooked.emit (hs : s.Hooked) :
    ReadsAs p (storeSize s.bits) s.bits v (s.emitTMRead junk p v) ∧
      ∀ val, s.emitTMWrite junk p val v = v.write p (bytesOf (storeSize s.bits) val) := by
  cases s with
  | half => exact bytes_emit 2
  | x86Fp80 => exact bytes_emit 10
  | float => exact ⟨readHook_reads p 4 v, fun _ => rfl⟩
  | double => exact ⟨readHook_reads p 8 v, fun _ => rfl⟩
  | ptr => exact ⟨readHook_reads p 8 v, fun _ => rfl⟩
  | int bits =>
      have hwide : ∀ n, wideHook (8 * n) = n → n ≤ allocSize (8 * n) →
          ReadsAs p n (8 * n) v
            { val := (bitsOf ((load v.mem p n ++ junk).take n)).take (8 * n)
              view := v.read p n
              temps := [(n, allocSize (8 * n))] } ∧
          ∀ val, v.write p ((bytesOf n val ++ junk).take n) = v.write p (bytesOf n val) := by
        intro n hn hle
        rw [List.take_left' length_load]
        refine ⟨⟨rfl, rfl, fun t ht => ?_⟩,
          fun val => by rw [List.take_left' (length_bytesOf n val)]⟩
        obtain rfl := List.mem_singleton.1 ht
        exact hle
      simp only [Scalar.Hooked, List.mem_cons, List.not_mem_nil, or_false] at hs
      rcases hs with rfl | rfl | rfl | rfl | rfl | rfl | rfl | rfl
      · exact ⟨⟨rfl, rfl, nofun⟩, fun _ => rfl⟩
      · exact ⟨readHook_reads p 1 v, fun _ => rfl⟩
      · exact ⟨readHook_reads p 2 v, fun _ => rfl⟩
      · exact ⟨readHook_reads p 4 v, fun _ => rfl⟩
      · exact ⟨readHook_reads p 8 v, fun _ => rfl⟩
      · exact hwide 16 rfl (by decide)
      · exact hwide 32 rfl (by decide)
      · exact hwide 64 rfl (by decide)

theorem Scalar.elemSizeBytes_pos (s : Scalar) : 0 < s.elemSizeBytes := by
  unfold Scalar.elemSizeBytes
  by_cases h : (if s = .ptr then 0 else s.bits) / 8 = 0
  · rw [if_pos h]
    exact Nat.one_pos
  · rw [if_neg h]
    exact Nat.pos_of_ne_zero h

theorem Scalar.Hooked.elemSize (hs : s.Hooked) (h1 : s ≠ .int 1) (hp : s ≠ .ptr) :
    s.bits = 8 * s.elemSizeBytes ∧ storeSize s.bits = s.elemSizeBytes := by
  cases s with
  | int bits =>
      simp only [Scalar.Hooked, List.mem_cons, List.not_mem_nil, or_false] at hs
      rcases hs with rfl | rfl | rfl | rfl | rfl | rfl | rfl | rfl
      · exact absurd rfl h1
      all_goals decide
  | ptr => exact absurd rfl hp
  | _ => decide

end Lemmas

end Plugin
