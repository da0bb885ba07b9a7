import ClangTM.BloomFilter
import ClangTM.Serial.CommitLog
import ClangTM.Serial.RedoLog
import ClangTM.Transition.Threads

/-!
# The multi-version log

The backend MVLog, as `MVLog.hpp` has it and as `runtime/mvlog` ports it to Rust, on 8-byte
cells. A transaction claims a slot of a ring of log entries when it begins. A commit waits for
the slots before its own, takes the commit lock, compares what it has read with what `resolve`
finds now, writes its write set to its log entry and to memory, and lets the index point to
its slot. When the window of slots since the watermark is long enough the committer folds the
entries of the window into memory in the order of their slots and raises the watermark.

The two ports differ in how `resolve` reads a log entry, in where a long write set is kept,
in what a conflict does to the slot, and in that only the Rust port keeps the fold from the
cells that the committer itself has written; `Port` says which of them runs.

A step is one access to the shared state. The index is a map: its buckets are written under
the commit lock only and are never taken back, and a bucket whose slot is not stored yet
reads as absent. `weak` is a `compare_exchange_weak` that fails although the lock is free. In
the C++ port a conflict jumps back to the retry loop, which begins again.

`holder` is the thread that holds the commit lock and `turn` the number of acquisitions.
`history` has the traces of the committed transactions by their turn and `pubs` the slots and
write sets of the committed transactions, newest first. No step reads these fields, nor `ops`
of a transaction.
-/

namespace MVLog

open Serial Transition

inductive Port
  | cpp
  | rust
deriving DecidableEq

def kLogSlots : ℕ := 2 ^ 17

def kMaxInlineWs : ℕ := 8

/-- The length of the window above which a commit reclaims. -/
def kReclaimThreshold : ℕ := 2 ^ 14

def bloomWords : ℕ := 64

inductive LogState
  | free
  | progress
  | committed
  | aborted
deriving DecidableEq

/-- A log entry. The arrays are used below `kMaxInlineWs`; a longer write set is in
`overflow`. -/
structure LogEntry where
  state : LogState := .free
  tag : ℕ := 0
  wsCount : ℕ := 0
  wsAddr : ℕ → CellAddr := fun _ => ⟨0, rfl⟩
  wsVal : ℕ → Word := fun _ => 0
  overflow : Option (List (CellAddr × Word)) := none

inductive Resolve
  /-- Rust: the load of `G_WM`. -/
  | loadWm
  /-- Rust: `index_lookup`. -/
  | lookup (w : ℕ)
  /-- C++: `index_lookup`. -/
  | lookupFirst
  /-- C++: the load of `g_wm`. -/
  | loadWmAfter (p : Option ℕ)
  | tag (p : ℕ)
  /-- Rust: the load of the state. -/
  | state (p : ℕ)
  | count (p : ℕ)
  | addr (p n i : ℕ)
  | val (p i : ℕ)
  | overflow (p : ℕ)
  /-- C++: the second load of the tag. -/
  | recheck (p : ℕ) (v : Word)
  | mem
deriving DecidableEq

inductive Caller
  | read
  | validate (observed : Word) (rest : List (CellAddr × Word))
deriving DecidableEq

inductive Pc
  | out
  /-- `begin`: the store of `Aborted` to the slot of the attempt before. -/
  | beginMark
  /-- `begin`: the `fetch_add` of the next slot. -/
  | claim
  /-- `begin`: the store of the tag. -/
  | beginTag (n : ℕ)
  /-- `begin`: the store of `Progress`. -/
  | beginState (n : ℕ)
  | body
  /-- `read_word`: the loads of the Bloom filter. -/
  | bloomFirst (a : CellAddr)
  | bloomSecond (a : CellAddr)
  /-- `read_word`: the load of the cell after a miss. -/
  | readMem (a : CellAddr)
  /-- In `resolve`. -/
  | resolve (a : CellAddr) (k : Caller) (r : Resolve)
  /-- `commit`: the load of the watermark. -/
  | commitWm
  /-- `commit`: the loads of the wait for a slot. -/
  | waitState (n : ℕ)
  | waitTag (n : ℕ)
  /-- `commit`: the acquisition of the commit lock. -/
  | lock
  /-- `commit`: the stores after a conflict. -/
  | conflictRelease
  | conflictState
  /-- `commit`: the store of 0 to the length of the entry. -/
  | resetCount
  /-- `commit`: the stores of a transaction without writes. -/
  | readOnlyState
  | readOnlyRelease
  /-- `commit`: the stores of the write set to the log entry. -/
  | pubAddr (i : ℕ)
  | pubVal (i : ℕ)
  | pubOverflow
  | pubCount
  /-- `commit`: the stores to memory still to do. -/
  | pubMem (rest : List (CellAddr × Word))
  /-- `commit`: the store of `Committed`. -/
  | pubState
  /-- `commit`: the entries still to be put in the index. -/
  | pubIndex (rest : List (CellAddr × Word))
  /-- `commit`: the load of the watermark that decides on a reclamation. -/
  | dueWm
  /-- `commit`: the accesses of the fold of one slot. -/
  | foldTag (n : ℕ)
  | foldState (n : ℕ)
  | foldCount (n : ℕ)
  | foldAddr (n len i : ℕ)
  | foldVal (n len i : ℕ) (a : CellAddr)
  | foldMem (n len i : ℕ) (a : CellAddr) (v : Word)
  | foldOverflow (n : ℕ)
  | foldRest (n : ℕ) (rest : List (CellAddr × Word))
  /-- `commit`: the store of the watermark. -/
  | storeWm
  /-- `commit`: the stores of 0 to the words of the Bloom filter. -/
  | clear (i : ℕ)
  /-- `commit`: the entries still to be put in the Bloom filter. -/
  | dirtyFirst (rest : List (CellAddr × Word))
  | dirtySecond (rest : List (CellAddr × Word))
  /-- `commit`: the release of the commit lock. -/
  | release

/-- A thread: its program counter, its transaction, the watermark that its commit has loaded
first, and what the last commit came to, until the next transaction begins. -/
structure Tx where
  pc : Pc := .out
  slot : ℕ := 0
  active : Bool := false
  readSet : List (CellAddr × Word) := []
  writeSet : List (CellAddr × Word) := []
  win : ℕ := 0
  committed : Option Bool := none
  ops : Trace CellAddr Word := []

structure Shared (T : Type) where
  gNext : ℕ := 1
  gWm : ℕ := 0
  gCommitLock : Bool := false
  gLog : ℕ → LogEntry := fun _ => {}
  gIndex : CellAddr → Option ℕ := fun _ => none
  gDirty : ℕ → Bool := fun _ => false
  mem : CellAddr → Word
  holder : Option T := none
  turn : ℕ := 0
  history : ℕ → Option (Trace CellAddr Word) := fun _ => none
  pubs : List (ℕ × List (CellAddr × Word)) := []

section Bloom

def bloomHash (a : Word) : Word × Word :=
  let h := (a * 0x9E3779B97F4A7C15).rotateLeft 7
  (h, h.rotateLeft 17 ^^^ (h >>> 3))

/-- The two places of the filter that stand for a cell: bits in the C++ port, whole words in
the Rust port. -/
def probes (port : Port) (a : CellAddr) : ℕ × ℕ :=
  match port with
  | .cpp =>
      ((bloomMix64 a.val).toNat % (64 * bloomWords),
        (bloomMix64 (a.val ^^^ 0x9e3779b97f4a7c15)).toNat % (64 * bloomWords))
  | .rust => ((bloomHash a.val).1.toNat % bloomWords, (bloomHash a.val).2.toNat % bloomWords)

def wordOf (port : Port) (j : ℕ) : ℕ :=
  match port with
  | .cpp => j / 64
  | .rust => j

end Bloom

/-- The tag of a slot: 32 bits in the C++ port. -/
def tagOf (port : Port) (n : ℕ) : ℕ :=
  match port with
  | .cpp => n % 2 ^ 32
  | .rust => n

/-- Where to go on in a write set of length `n` that is kept in a log entry, at position `i`:
the C++ port keeps a long one in the overflow array only, the Rust port keeps its first
entries in both places. -/
def nextInline {α : Type} (port : Port) (n i : ℕ) (inline overflow done : α) : α :=
  match port with
  | .cpp => if kMaxInlineWs < n then overflow else if i < n then inline else done
  | .rust => if i < min n kMaxInlineWs then inline else if kMaxInlineWs < n then overflow else done

namespace Shared

variable {T : Type} (σ : Shared T)

def entry (n : ℕ) : LogEntry := σ.gLog (n % kLogSlots)

def setEntry (n : ℕ) (f : LogEntry → LogEntry) : Shared T :=
  { σ with gLog := Function.update σ.gLog (n % kLogSlots) (f (σ.entry n)) }

end Shared

section Resolve

variable {T : Type} (port : Port) (σ : Shared T) (a : CellAddr)

def Resolve.start : Resolve :=
  match port with
  | .cpp => .lookupFirst
  | .rust => .loadWm

def Resolve.found (p : Option ℕ) (w : ℕ) : Resolve :=
  match p with
  | none => .mem
  | some p => if p < w then .mem else .tag p

def Resolve.missed : Resolve :=
  match port with
  | .cpp => .start .cpp
  | .rust => .mem

/-- The scan of the entry of slot `p` from position `i` on. -/
def Resolve.scan (p n i : ℕ) : Resolve :=
  nextInline port n i (.addr p n i) (.overflow p) (.missed port)

def Resolve.hit (p : ℕ) (v : Word) : Resolve ⊕ Word :=
  match port with
  | .cpp => .inl (.recheck p v)
  | .rust => .inr v

def resolveStep (r : Resolve) : Resolve ⊕ Word :=
  match r with
  | .loadWm => .inl (.lookup σ.gWm)
  | .lookup w => .inl (.found (σ.gIndex a) w)
  | .lookupFirst => .inl (.loadWmAfter (σ.gIndex a))
  | .loadWmAfter p => .inl (.found p σ.gWm)
  | .tag p =>
      .inl (if (σ.entry p).tag = tagOf port p then
          match port with
          | .cpp => .count p
          | .rust => .state p
        else .start port)
  | .state p => .inl (if (σ.entry p).state = .committed then .count p else .start port)
  | .count p => .inl (.scan port p (σ.entry p).wsCount 0)
  | .addr p n i =>
      .inl (if (σ.entry p).wsAddr i = a then .val p i else .scan port p n (i + 1))
  | .val p i => Resolve.hit port p ((σ.entry p).wsVal i)
  | .overflow p =>
      match ((σ.entry p).overflow.getD []).lookup a with
      | some v => Resolve.hit port p v
      | none => .inl (.missed port)
  | .recheck p v => if (σ.entry p).tag = tagOf port p then .inr v else .inl (.start port)
  | .mem => .inr (σ.mem a)

end Resolve

namespace Tx

variable (port : Port) (x : Tx)

def begin (n : ℕ) : Tx := { pc := .body, slot := n, active := true }

def finish (result : Option Bool) : Tx := { committed := result }

/-- `abort_tx` of the C++ port: the slot stays as it is until the retry begins. -/
def jump : Tx :=
  { x with pc := .out, readSet := [], writeSet := [], committed := some false, ops := [] }

def readWord (a : CellAddr) : Tx :=
  match x.writeSet.lookup a with
  | some v => { x with ops := .read a v :: x.ops }
  | none => { x with pc := .bloomFirst a }

def observe (a : CellAddr) (v : Word) : Tx :=
  { x with pc := .body, readSet := x.readSet ++ [(a, v)], ops := .read a v :: x.ops }

def writeWord (a : CellAddr) (v : Word) : Tx :=
  { x with writeSet := putBack a v x.writeSet, ops := .write a v :: x.ops }

def waitFrom (n : ℕ) : Tx := { x with pc := if n < x.slot then .waitState n else .lock }

/-- The validation of the rest of the read set, or the publication. -/
def validateFrom (rest : List (CellAddr × Word)) : Tx :=
  match rest with
  | [] => { x with pc := .resetCount }
  | r :: rest => { x with pc := .resolve r.1 (.validate r.2 rest) (.start port) }

def resolved (a : CellAddr) (k : Caller) (v : Word) : Tx :=
  match k with
  | .read => x.observe a v
  | .validate observed rest =>
      if v = observed then x.validateFrom port rest else { x with pc := .conflictRelease }

def pubFrom (i : ℕ) : Tx :=
  { x with pc := nextInline port x.writeSet.length i (.pubAddr i) .pubOverflow .pubCount }

def pubMemFrom (rest : List (CellAddr × Word)) : Tx :=
  { x with pc := if rest = [] then .pubState else .pubMem rest }

def pubIndexFrom (rest : List (CellAddr × Word)) : Tx :=
  { x with pc := if rest = [] then .dueWm else .pubIndex rest }

def foldFrom (n : ℕ) : Tx := { x with pc := if n < x.slot then .foldTag n else .storeWm }

def foldInline (n len i : ℕ) : Tx :=
  nextInline port len i { x with pc := .foldAddr n len i } { x with pc := .foldOverflow n }
    (x.foldFrom (n + 1))

def foldRestFrom (n : ℕ) (rest : List (CellAddr × Word)) : Tx :=
  if rest = [] then x.foldFrom (n + 1) else { x with pc := .foldRest n rest }

/-- The fold leaves a cell alone that the committer has written, in the Rust port. -/
def skips (a : CellAddr) : Bool := port = .rust ∧ (x.writeSet.lookup a).isSome

def dirtyFrom (rest : List (CellAddr × Word)) : Tx :=
  { x with pc := if rest = [] then .release else .dirtyFirst rest }

/-- The window is long enough. The difference is that of 64-bit words, so it is huge below
the watermark. -/
def due (wm : ℕ) : Bool := x.slot < wm ∨ kReclaimThreshold < x.slot - wm

end Tx

section Step

variable {T : Type} (port : Port) (t : T) (σ : Shared T) (x : Tx)

def acquire : Shared T × Tx :=
  if σ.gCommitLock then (σ, x)
  else
    ({ σ with gCommitLock := true, holder := some t, turn := σ.turn + 1 },
      x.validateFrom port x.readSet)

def publish : Shared T :=
  { σ.setEntry x.slot fun e => { e with state := .committed } with
    history := enter σ.history σ.turn x.ops
    pubs := (x.slot, x.writeSet) :: σ.pubs }

def unlock : Shared T := { σ with gCommitLock := false, holder := none }

def foldStore (a : CellAddr) (v : Word) : Shared T :=
  if x.skips port a then σ else { σ with mem := Function.update σ.mem a v }

def access : Option (Shared T × Tx) :=
  match x.pc with
  | .out => none
  | .body => none
  | .beginMark =>
      some (σ.setEntry x.slot fun e => { e with state := .aborted }, { x with pc := .claim })
  | .claim => some ({ σ with gNext := σ.gNext + 1 }, { x with pc := .beginTag σ.gNext })
  | .beginTag n =>
      some (σ.setEntry n fun e => { e with tag := tagOf port n }, { x with pc := .beginState n })
  | .beginState n => some (σ.setEntry n fun e => { e with state := .progress }, Tx.begin n)
  | .bloomFirst a =>
      some (σ, { x with pc := if σ.gDirty (probes port a).1 then .bloomSecond a else .readMem a })
  | .bloomSecond a =>
      some (σ,
        { x with
          pc := if σ.gDirty (probes port a).2 then .resolve a .read (.start port)
            else .readMem a })
  | .readMem a => some (σ, x.observe a (σ.mem a))
  | .resolve a k r =>
      some (σ,
        match resolveStep port σ a r with
        | .inl r => { x with pc := .resolve a k r }
        | .inr v => x.resolved port a k v)
  | .commitWm => some (σ, { x with win := σ.gWm }.waitFrom σ.gWm)
  | .waitState n =>
      some (σ,
        if (σ.entry n).state = .progress then { x with pc := .waitTag n } else x.waitFrom (n + 1))
  | .waitTag n =>
      some (σ,
        if (σ.entry n).tag = tagOf port n then { x with pc := .waitState n }
        else x.waitFrom (n + 1))
  | .lock => some (acquire port t σ x)
  | .conflictRelease =>
      some (unlock σ,
        match port with
        | .cpp => x.jump
        | .rust => { x with pc := .conflictState })
  | .conflictState =>
      some (σ.setEntry x.slot fun e => { e with state := .aborted }, Tx.finish (some false))
  | .resetCount =>
      some (σ.setEntry x.slot fun e => { e with wsCount := 0 },
        if x.writeSet = [] then { x with pc := .readOnlyState } else x.pubFrom port 0)
  | .readOnlyState => some (publish σ x, { x with pc := .readOnlyRelease })
  | .readOnlyRelease => some (unlock σ, Tx.finish (some true))
  | .pubAddr i =>
      (x.writeSet[i]?).map fun w =>
        (σ.setEntry x.slot fun e => { e with wsAddr := Function.update e.wsAddr i w.1 },
          { x with pc := .pubVal i })
  | .pubVal i =>
      (x.writeSet[i]?).map fun w =>
        (σ.setEntry x.slot fun e => { e with wsVal := Function.update e.wsVal i w.2 },
          x.pubFrom port (i + 1))
  | .pubOverflow =>
      some (σ.setEntry x.slot fun e => { e with overflow := some x.writeSet },
        { x with pc := .pubCount })
  | .pubCount =>
      some (σ.setEntry x.slot fun e => { e with wsCount := x.writeSet.length },
        x.pubMemFrom x.writeSet)
  | .pubMem rest =>
      rest.head?.map fun w =>
        ({ σ with mem := Function.update σ.mem w.1 w.2 }, x.pubMemFrom rest.tail)
  | .pubState => some (publish σ x, x.pubIndexFrom x.writeSet)
  | .pubIndex rest =>
      rest.head?.map fun w =>
        ({ σ with gIndex := Function.update σ.gIndex w.1 (some x.slot) }, x.pubIndexFrom rest.tail)
  | .dueWm => some (σ, if x.due σ.gWm then x.foldFrom x.win else x.dirtyFrom x.writeSet)
  | .foldTag n =>
      some (σ,
        if (σ.entry n).tag = tagOf port n then { x with pc := .foldState n }
        else x.foldFrom (n + 1))
  | .foldState n =>
      some (σ,
        if (σ.entry n).state = .committed then { x with pc := .foldCount n }
        else x.foldFrom (n + 1))
  | .foldCount n => some (σ, x.foldInline port n (σ.entry n).wsCount 0)
  | .foldAddr n len i => some (σ, { x with pc := .foldVal n len i ((σ.entry n).wsAddr i) })
  | .foldVal n len i a => some (σ, { x with pc := .foldMem n len i a ((σ.entry n).wsVal i) })
  | .foldMem n len i a v => some (foldStore port σ x a v, x.foldInline port n len (i + 1))
  | .foldOverflow n => some (σ, x.foldRestFrom n ((σ.entry n).overflow.getD []))
  | .foldRest n rest =>
      rest.head?.map fun w => (foldStore port σ x w.1 w.2, x.foldRestFrom n rest.tail)
  | .storeWm => some ({ σ with gWm := x.slot }, { x with pc := .clear 0 })
  | .clear i =>
      some ({ σ with gDirty := fun j => if wordOf port j = i then false else σ.gDirty j },
        if i + 1 < bloomWords then { x with pc := .clear (i + 1) } else x.dirtyFrom x.writeSet)
  | .dirtyFirst rest =>
      rest.head?.map fun w =>
        ({ σ with gDirty := Function.update σ.gDirty (probes port w.1).1 true },
          { x with pc := .dirtySecond rest })
  | .dirtySecond rest =>
      rest.head?.map fun w =>
        ({ σ with gDirty := Function.update σ.gDirty (probes port w.1).2 true },
          x.dirtyFrom rest.tail)
  | .release => some (unlock σ, Tx.finish (some true))

/-- One step of a thread. `tm_abort` of the Rust port drops the transaction; a Rust
transaction can begin anew in the body of another one. -/
def next (c : TmCall CellAddr) : Option (Shared T × Tx) :=
  match c with
  | .tau => access port t σ x
  | .weak =>
      match port, x.pc with
      | .rust, .lock => some (σ, x)
      | _, _ => none
  | .begin =>
      match port, x.pc with
      | _, .out => some (σ, { x with pc := if x.active then .beginMark else .claim })
      | .rust, .body => some (σ, { x with pc := .beginMark })
      | _, _ => none
  | .read a =>
      match x.pc with
      | .body => some (σ, x.readWord a)
      | _ => none
  | .write a v =>
      match x.pc with
      | .body => some (σ, x.writeWord a v)
      | _ => none
  | .commit =>
      match x.pc with
      | .body => some (σ, { x with pc := .commitWm })
      | _ => none
  | .abort =>
      match port, x.pc with
      | .rust, .body => some (σ, {})
      | _, _ => none

end Step

def step (port : Port) {T : Type} [DecidableEq T] :
    Threads (Shared T) Tx T → T × TmCall CellAddr → Option (Threads (Shared T) Tx T) :=
  Threads.step (next port)

def init (T : Type) (m₀ : CellAddr → Word) : Threads (Shared T) Tx T where
  shared := { mem := m₀ }
  tx _ := {}

end MVLog
