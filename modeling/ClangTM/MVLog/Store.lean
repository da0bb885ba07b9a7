import ClangTM.MVLog.SlotSteps
import ClangTM.Serial.Buffered
import ClangTM.Serial.Versions

/-!
# What the multi-version log stores

The write sets that were published are versions in the sense of `Serial.Versions`, numbered by
their slots; `value` of them is the memory that the committed transactions have left. Only the
holder of the commit lock changes memory, the index, the watermark and the versions, so what
these are is a matter of where the holder is: `Stored`. In between memory is `value` and the
index points to the newest version of every cell, so `resolve`, called under the commit lock,
finds `value`.
-/

namespace MVLog

open Serial Transition Ticket

def Pc.reading : Pc → Option CellAddr
  | .bloomFirst a | .bloomSecond a | .readMem a => some a
  | .resolve a .read _ => some a
  | _ => none

structure Buffering (x : Tx) : Prop where
  buffered : Buffered x.ops x.writeSet x.readSet
  reading : ∀ a, x.pc.reading = some a → x.writeSet.lookup a = none

/-- The part of the shared state that only the holder of the commit lock changes. -/
structure Store where
  gWm : ℕ
  gIndex : CellAddr → Option ℕ
  mem : CellAddr → Word
  turn : ℕ
  history : ℕ → Option (Trace CellAddr Word)
  pubs : List (ℕ × List (CellAddr × Word))

def Shared.store {T : Type} (σ : Shared T) : Store :=
  ⟨σ.gWm, σ.gIndex, σ.mem, σ.turn, σ.history, σ.pubs⟩

section Stored

variable (port : Port) (m₀ : CellAddr → Word) (S : Store) (x : Tx)

structure FoldingAt (n : ℕ) : Prop where
  win : x.win ≤ n
  slot : n < x.slot
  folding : Folding S.mem m₀ S.pubs n x.slot

/-- The fold is inside slot `n`, with these entries of its write set to go. -/
structure FoldingIn (n : ℕ) (ws rest : List (CellAddr × Word)) : Prop where
  win : x.win ≤ n
  slot : n < x.slot
  mem : (n, ws) ∈ S.pubs
  sub : rest <:+ ws
  folding : FoldingEntry S.mem m₀ S.pubs n x.slot rest

/-- Memory, by what the holder of the commit lock is about to do. -/
def MemInv : Prop :=
  match x.pc with
  | .pubMem rest =>
      rest <:+ x.writeSet ∧
        ∀ a, S.mem a = if (rest.lookup a).isSome then value m₀ S.pubs a
          else (x.writeSet.lookup a).getD (value m₀ S.pubs a)
  | .pubState => ∀ a, S.mem a = (x.writeSet.lookup a).getD (value m₀ S.pubs a)
  | .foldTag n | .foldState n => FoldingAt m₀ S x n
  | .foldCount n => ∃ ws, FoldingIn m₀ S x n ws ws
  | .foldAddr n len i =>
      ∃ ws, FoldingIn m₀ S x n ws (ws.drop i) ∧ len = ws.length ∧ i < inlineLen port len
  | .foldVal n len i a =>
      ∃ ws w, FoldingIn m₀ S x n ws (ws.drop i) ∧ len = ws.length ∧ i < inlineLen port len ∧
        ws[i]? = some w ∧ w.1 = a
  | .foldMem n len i a v =>
      ∃ ws, FoldingIn m₀ S x n ws (ws.drop i) ∧ len = ws.length ∧ i < inlineLen port len ∧
        ws[i]? = some (a, v)
  | .foldOverflow n => ∃ ws, FoldingIn m₀ S x n ws ws ∧ kMaxInlineWs < ws.length
  | .foldRest n rest => ∃ ws, FoldingIn m₀ S x n ws rest
  | _ => S.mem = value m₀ S.pubs

/-- The index points to the newest version of every cell, except that it is behind by one
version where the holder of the commit lock has still to change it. -/
structure IndexInv : Prop where
  sub : x.pc.unindexed <:+ x.writeSet
  eq : ∀ a, S.gIndex a =
    (latest (if (x.pc.unindexed.lookup a).isSome then S.pubs.tail else S.pubs) a).map Prod.fst

/-- The newest version of the cell is that of slot `p`, which is not below the watermark. -/
def Pointed (a : CellAddr) (p : ℕ) : Prop :=
  (∃ v, latest S.pubs a = some (p, v)) ∧ S.gWm ≤ p

def ResolveInv (a : CellAddr) : Resolve → Prop
  | .loadWm | .lookupFirst | .mem => True
  | .lookup w => w = S.gWm
  | .loadWmAfter p => p = S.gIndex a
  | .tag p | .state p | .count p => Pointed S a p
  | .addr p n i =>
      Pointed S a p ∧ ∃ ws, (p, ws) ∈ S.pubs ∧ n = ws.length ∧ i < inlineLen port ws.length
  | .val p i =>
      Pointed S a p ∧
        ∃ ws w, (p, ws) ∈ S.pubs ∧ i < inlineLen port ws.length ∧ ws[i]? = some w ∧ w.1 = a
  | .overflow p => Pointed S a p ∧ ∃ ws, (p, ws) ∈ S.pubs ∧ kMaxInlineWs < ws.length
  | .recheck _ v => v = value m₀ S.pubs a

/-- The entries of a read set have the values of the committed memory. -/
def Agrees (rs : List (CellAddr × Word)) : Prop := ∀ r ∈ rs, value m₀ S.pubs r.1 = r.2

def Checked : Prop :=
  match x.pc with
  | .resolve a (.validate observed rest) r =>
      (∃ seen, x.readSet = seen ++ (a, observed) :: rest ∧ Agrees m₀ S seen) ∧
        ResolveInv port m₀ S a r
  | .resetCount | .readOnlyState | .pubAddr _ | .pubVal _ | .pubOverflow | .pubCount | .pubMem _
  | .pubState => Agrees m₀ S x.readSet
  | _ => True

/-- The history: its entries are legal where they stand and leave the committed memory. The
turn of a holder that has not published is empty. -/
structure HistInv : Prop where
  leaves : memAt m₀ S.history S.turn = value m₀ S.pubs
  later : ∀ n, S.turn < n → S.history n = none
  legal : ∀ n w, 0 < n → S.history n = some w → Legal (memAt m₀ S.history (n - 1)) w
  empty : x.pc.phase = .decide → 0 < S.turn ∧ S.history S.turn = none

/-- What is stored, by where the holder `x` of the commit lock is. -/
structure Stored : Prop where
  nodup : ∀ e ∈ S.pubs, (e.2.map Prod.fst).Nodup
  memory : MemInv port m₀ S x
  index : IndexInv S x
  checked : Checked port m₀ S x
  head : x.pc.phase = .done → ∃ vs, S.pubs = (x.slot, x.writeSet) :: vs
  hist : HistInv m₀ S x

end Stored

section System

variable {T : Type} (port : Port) (m₀ : CellAddr → Word) (s : Threads (Shared T) Tx T)

/-- The holder of the commit lock, or a thread outside a transaction. -/
def work : Tx := (s.shared.holder.map s.tx).getD {}

structure StoreInv : Prop where
  stored : Stored port m₀ s.shared.store (work s)
  tx : ∀ t, Buffering (s.tx t)

end System

end MVLog
