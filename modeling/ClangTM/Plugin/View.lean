import ClangTM.Bytes.Block

/-!
# What the hooks of a transaction do

The code that the plugin emits reaches transactional memory through hooks. A transaction sees its
own writes byte for byte: `View.mem` is memory as its hooks read it, and `View.touched` are the
addresses that the hooks have been called for.
-/

namespace Plugin

open Bytes

abbrev Byte := BitVec 8

abbrev Addr := BitVec 64

structure View where
  mem : Addr → Byte
  touched : List Addr := []

/-- A hook has read the block; its value is `load v.mem a n`. -/
def View.read (v : View) (a : Addr) (n : ℕ) : View :=
  { v with touched := v.touched ++ range a n }

def View.write (v : View) (a : Addr) (bs : List Byte) : View where
  mem := store v.mem a bs
  touched := v.touched ++ range a bs.length

/-- A loop over `0 ≤ i < n`, upwards. -/
def forTo {S : Type} (body : ℕ → S → S) : ℕ → S → S
  | 0, s => s
  | n + 1, s => body n (forTo body n s)

theorem View.read_zero (v : View) (a : Addr) : v.read a 0 = v := by
  simp [View.read, range]

theorem View.read_add (v : View) (a : Addr) (k n : ℕ) :
    v.read a (k + n) = (v.read a k).read (a + BitVec.ofNat 64 k) n := by
  simp [View.read, range_add]

theorem View.write_nil (v : View) (a : Addr) : v.write a [] = v := by
  simp [View.write, store, range]

theorem View.write_append (v : View) (a : Addr) (bs cs : List Byte) :
    v.write a (bs ++ cs) = (v.write a bs).write (a + BitVec.ofNat 64 bs.length) cs := by
  simp [View.write, store_append, range_add]

end Plugin
