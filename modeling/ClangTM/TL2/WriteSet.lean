import ClangTM.TscTM.WriteSet

/-!
# The write set of TL2 for accesses of all types

`write_impl`, `read_impl`, and the sort and the write-back of `commit` are those of TSC-TM. They
are right as long as accesses are equal or apart.

`bloom_set` enters eight addresses, from the one of the write upwards, and `bloom_might_contain`
asks for the first address of a read. A read that begins below an entry and reaches into it may
therefore find the filter empty; it would also find no entry that it can use.
-/

namespace TL2.Typed

open Serial TypedAddr TscTM

def writeImpl : WriteSet → TypedAddr × Word → WriteSet := WriteSet.writeImpl

def readImpl : (BitVec 64 → BitVec 8) → WriteSet → TypedAddr → List (BitVec 8) := WriteSet.readImpl

/-- `commit`: the entries are sorted by their address and written back. -/
def commit : (BitVec 64 → BitVec 8) → WriteSet → BitVec 64 → BitVec 8 := WriteSet.commit

def ofWrites (ws : List (TypedAddr × Word)) : WriteSet := ws.foldl writeImpl {}

end TL2.Typed
