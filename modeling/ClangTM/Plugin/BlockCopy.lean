import ClangTM.Plugin.View

/-!
# Block copies of the runtimes

`tm_write_z` and `tm_read_z` move whole words and then the bytes that remain. `tm_write_z` starts
with the remaining bytes one byte too low, so that it is right only if none remain; `tm_read_z`
stores each word to one byte of its buffer, and the remaining bytes to the start of it, so that it
is right only if there are no words.
-/

namespace Plugin

open Bytes

/-- The runtimes: the shared macro `TM_DEFINE_PLUGIN_RW`, and those with routines of their own. -/
inductive Runtime
  | pluginRW | norecBF | mvlog | dudetm
deriving DecidableEq

/-- `tm_write_z`, which has the same text in all runtimes. The source is read without hooks. -/
def tmWriteZ (raw : Addr → Byte) (dst src : Addr) (len : BitVec 64) (v : View) : View :=
  let v := forTo (fun i v => v.write (dst + BitVec.ofNat 64 (8 * i))
    (load raw (src + BitVec.ofNat 64 (8 * i)) 8)) (len / 8).toNat v
  let rem := len % 8
  forTo (fun i v => v.write (dst + (len - rem - 1) + BitVec.ofNat 64 i)
    [raw (src + (len - rem - 1) + BitVec.ofNat 64 i)]) rem.toNat v

/-- What `tm_read_z` subtracts from the place of the remaining bytes. DUDETM has no `tm_read_z`. -/
def Runtime.readBack : Runtime → Option (BitVec 64)
  | .pluginRW => some 0
  | .norecBF | .mvlog => some 1
  | .dudetm => none

/-- `tm_read_z`: the contents of `tm_buffer` after the call. -/
def Runtime.tmReadZ (r : Runtime) (a : Addr) (len : BitVec 64) (s : (ℕ → Byte) × View) :
    Option ((ℕ → Byte) × View) :=
  r.readBack.map fun back =>
    -- the assignment of a word to a byte of the buffer keeps its first byte
    let s := forTo (fun i s => (Function.update s.1 i (s.2.mem (a + BitVec.ofNat 64 (8 * i))),
      s.2.read (a + BitVec.ofNat 64 (8 * i)) 8)) (len / 8).toNat s
    let rem := len % 8
    forTo (fun i s => (Function.update s.1 i
      (s.2.mem (a + (len - rem - back) + BitVec.ofNat 64 i)),
      s.2.read (a + (len - rem - back) + BitVec.ofNat 64 i) 1)) rem.toNat s

theorem forTo_write (raw : Addr → Byte) (dst src : Addr) (k n : ℕ) (v : View) :
    forTo (fun i v => v.write (dst + BitVec.ofNat 64 (k * i))
      (load raw (src + BitVec.ofNat 64 (k * i)) k)) n v = v.write dst (load raw src (k * n)) := by
  induction n with
  | zero => exact (v.write_nil dst).symm
  | succ n ih => rw [forTo, ih, Nat.mul_succ, load_add, View.write_append, length_load]

theorem forTo_read (a : Addr) (n : ℕ) (buf : ℕ → Byte) (v : View) :
    forTo (fun i s => (Function.update s.1 i (s.2.mem (a + BitVec.ofNat 64 i)),
      s.2.read (a + BitVec.ofNat 64 i) 1)) n (buf, v) =
        (fun i => if i < n then v.mem (a + BitVec.ofNat 64 i) else buf i, v.read a n) := by
  induction n with
  | zero => simp [forTo, View.read_zero]
  | succ n ih =>
      rw [forTo, ih, View.read_add]
      refine Prod.ext (funext fun i => ?_) rfl
      dsimp only
      rw [Function.update_apply]
      by_cases hi : i = n
      · rw [if_pos hi, if_pos (by omega), hi]
        rfl
      · rw [if_neg hi, if_congr (by omega : i < n ↔ i < n + 1) rfl rfl]

theorem map_range_load (m : Addr → Byte) (a : Addr) (n : ℕ) :
    (List.range n).map (fun i => m (a + BitVec.ofNat 64 i)) = load m a n := by
  induction n with
  | zero => rfl
  | succ n ih => rw [List.range_succ, List.map_append, ih, load_add]; rfl

end Plugin
