import Mathlib.Logic.Function.Basic
import ClangTM.Memory

/-!
# The simulation engine

`SimEngine` of `sim_engine.rs` replays a trace of events on a backend, and `Verifier` of
`verifier.rs` keeps a shadow of it. Simulated threads are numbers; a thread of the trace has
the id `base_tid + tid` in the backend.

A backend is given by what its functions do: its state is the transaction states by thread,
which `sim::snapshot_states` returns, and a global part, with memory in it. A call that raises
`TmxAbort` returns `none`, or `false` for a write.

Left out is what has no effect on the statistics, the verifier and the backend: the estimation
of cycles, the deadlock detector with the write sets kept for it, and what is printed.
-/

namespace Simulator

inductive EventKind
  | threadSpawn (child : ℕ)
  | threadJoin (child : ℕ)
  | txBegin
  | txEnd
  | abort (reason : Word)
  | read (addr : Word) (width : ℕ)
  | write (addr : Word) (width : ℕ) (val : Word)
  | alloc (addr size : Word)
  | free (addr : Word)
  | computation (cycles : ℕ)
  | checkpoint
  | assert (cond : Bool) (msg : String)
  | log (msg : String)

structure Event where
  threadId : ℕ
  kind : EventKind

structure ReplayStats where
  totalEvents : ℕ := 0
  commits : ℕ := 0
  aborts : ℕ := 0
  readsOutsideTx : ℕ := 0
  writesOutsideTx : ℕ := 0
deriving DecidableEq

structure Allocation where
  size : Word
  isFreed : Bool
deriving DecidableEq

inductive Violation
  | useAfterFree (tid : ℕ) (addr size : Word)
  | reAlloc (addr size : Word)
  | freeUnallocated (addr : Word)
  | doubleFree (addr : Word)
  | doubleTxBegin (tid depth : ℕ)
  | commitWithoutBegin (tid : ℕ)
  | abortWithoutBegin (tid : ℕ)
deriving DecidableEq

def hex (w : Word) : String := "0x" ++ String.ofList (Nat.toDigits 16 w.toNat)

def Violation.text : Violation → String
  | .useAfterFree tid addr size =>
      "USE-AFTER-FREE tid=" ++ toString tid ++ " addr=" ++ hex addr ++ " (was freed, size=" ++
        toString size.toNat ++ ")"
  | .reAlloc addr size =>
      "RE-ALLOC of address " ++ hex addr ++ " (still live, size=" ++ toString size.toNat ++ ")"
  | .freeUnallocated addr => "FREE of unallocated address " ++ hex addr
  | .doubleFree addr => "DOUBLE-FREE of address " ++ hex addr
  | .doubleTxBegin tid depth =>
      "DOUBLE-TX-BEGIN tid=" ++ toString tid ++ " (already in transaction, depth=" ++
        toString depth ++ ")"
  | .commitWithoutBegin tid => "COMMIT-WITHOUT-BEGIN tid=" ++ toString tid
  | .abortWithoutBegin tid => "ABORT-WITHOUT-BEGIN tid=" ++ toString tid

structure Verifier where
  shadow : Word → Option Allocation := fun _ => none
  values : Word → Option Word := fun _ => none
  txDepth : ℕ → Option ℕ := fun _ => none
  violations : List Violation := []
  readsOutside : ℕ := 0
  writesOutside : ℕ := 0
  aborts : ℕ := 0
  commits : ℕ := 0

namespace Verifier

variable (v : Verifier)

/-- The use of an address that has been freed. -/
def checkUse (tid : ℕ) (addr : Word) : Verifier :=
  match v.shadow addr with
  | some ⟨size, true⟩ => { v with violations := v.violations ++ [.useAfterFree tid addr size] }
  | _ => v

def checkRead (tid : ℕ) (addr : Word) : Verifier :=
  if (v.txDepth tid).getD 0 = 0 then { v with readsOutside := v.readsOutside + 1 }
  else v.checkUse tid addr

def checkWrite (tid : ℕ) (addr : Word) : Verifier :=
  if (v.txDepth tid).getD 0 = 0 then { v with writesOutside := v.writesOutside + 1 }
  else v.checkUse tid addr

def alloc (addr size : Word) : Verifier :=
  match v.shadow addr with
  | some ⟨old, false⟩ => { v with violations := v.violations ++ [.reAlloc addr old] }
  | _ => { v with shadow := Function.update v.shadow addr (some ⟨size, false⟩) }

def free (addr : Word) : Verifier :=
  match v.shadow addr with
  | none => { v with violations := v.violations ++ [.freeUnallocated addr] }
  | some ⟨_, true⟩ => { v with violations := v.violations ++ [.doubleFree addr] }
  | some ⟨size, false⟩ => { v with shadow := Function.update v.shadow addr (some ⟨size, true⟩) }

def txBegin (tid : ℕ) : Verifier :=
  let depth := (v.txDepth tid).getD 0
  { v with
    violations :=
      if 0 < depth then v.violations ++ [.doubleTxBegin tid depth] else v.violations
    txDepth := Function.update v.txDepth tid (some (depth + 1)) }

def txCommit (tid : ℕ) : Verifier :=
  match v.txDepth tid with
  | some (d + 1) =>
      { v with txDepth := Function.update v.txDepth tid (some d), commits := v.commits + 1 }
  | _ => { v with violations := v.violations ++ [.commitWithoutBegin tid] }

def txAbort (tid : ℕ) : Verifier :=
  match v.txDepth tid with
  | some (d + 1) =>
      { v with txDepth := Function.update v.txDepth tid (some d), aborts := v.aborts + 1 }
  | some 0 => v
  | none => { v with violations := v.violations ++ [.abortWithoutBegin tid] }

def recordValue (addr val : Word) : Verifier :=
  { v with values := Function.update v.values addr (some val) }

end Verifier

/-- The state of a backend: what it keeps for each thread, and the rest. -/
structure BackendState (σ γ : Type) where
  threads : ℕ → σ
  shared : γ

/-- The functions of a backend; the thread is the one that `sim::set_thread_id` has set. -/
structure Backend (σ γ : Type) where
  isTsxSim : Bool
  initThread : ℕ → BackendState σ γ → BackendState σ γ
  begin : ℕ → BackendState σ γ → BackendState σ γ
  tryBegin : ℕ → BackendState σ γ → Bool × BackendState σ γ
  forceSgl : ℕ → BackendState σ γ → BackendState σ γ
  commit : ℕ → BackendState σ γ → Bool × BackendState σ γ
  abort : ℕ → BackendState σ γ → BackendState σ γ
  read : ℕ → Word → ℕ → BackendState σ γ → Option Word × BackendState σ γ
  write : ℕ → Word → ℕ → Word → BackendState σ γ → Bool × BackendState σ γ

/-- Why `dispatch_event` returns an error. -/
inductive DispatchError
  | txEndAfterAbort
  | commitFailed
  | abort (reason : Word)
  | abortedDuringRead
  | unsupportedReadWidth (width : ℕ)
  | abortedDuringWrite
  | unsupportedWriteWidth (width : ℕ)
  | assertionFailed (msg : String)

def DispatchError.text : DispatchError → String
  | .txEndAfterAbort => "TxEnd after abort — skipped"
  | .commitFailed => "commit failed"
  | .abort reason => "abort (reason=" ++ toString reason.toNat ++ ")"
  | .abortedDuringRead => "aborted during read"
  | .unsupportedReadWidth width => "unsupported read width " ++ toString width
  | .abortedDuringWrite => "aborted during write"
  | .unsupportedWriteWidth width => "unsupported write width " ++ toString width
  | .assertionFailed msg => "assertion failed: " ++ msg

structure SimEngine (σ γ : Type) where
  stats : ReplayStats := {}
  verifier : Verifier := {}
  backend : BackendState σ γ
  baseTid : ℕ
  inTx : ℕ → Bool := fun _ => false
  aborted : ℕ → Bool := fun _ => false
  seenThreads : ℕ → Bool := fun _ => false
  eventsProcessed : ℕ := 0
  computedCycles : ℕ := 0
  addrAddend : Word := 0
  pendingBegins : List ℕ := []

def supported (width : ℕ) : Bool := width == 1 || width == 2 || width == 4 || width == 8

def truncate (width : ℕ) (val : Word) : Word := BitVec.ofNat 64 (val.toNat % 2 ^ (8 * width))

namespace SimEngine

variable {σ γ : Type} (B : Backend σ γ) (e : SimEngine σ γ)

def btid (tid : ℕ) : ℕ := e.baseTid + tid

def translateAddr (addr : Word) : Word := addr + e.addrAddend

def ensureThread (tid : ℕ) : SimEngine σ γ :=
  if e.seenThreads tid then e
  else
    { e with
      seenThreads := Function.update e.seenThreads tid true
      backend := B.initThread tid e.backend }

def enterTx (tid : ℕ) : SimEngine σ γ :=
  { e with
    verifier := e.verifier.txBegin tid
    inTx := Function.update e.inTx tid true
    aborted := Function.update e.aborted tid false }

/-- The state of the retry loop of `flush_pending_begins`: the attempts of each thread, and the
threads that are in a transaction. -/
structure Flush (σ γ : Type) where
  engine : SimEngine σ γ
  attempts : ℕ → ℕ := fun _ => 0
  entered : List ℕ := []

def maxRetries : ℕ := 5

/-- One attempt of a thread, which falls back to the lock when it was its last one. -/
def attemptBegin (f : Flush σ γ) (tid : ℕ) : Flush σ γ :=
  if tid ∈ f.entered then f
  else
    let e := f.engine
    let r := B.tryBegin (e.btid tid) e.backend
    let attempts := Function.update f.attempts tid (f.attempts tid + 1)
    if r.1 then
      { engine := { e with backend := r.2 }.enterTx tid
        attempts := attempts, entered := tid :: f.entered }
    else if maxRetries ≤ attempts tid then
      { engine := { e with backend := B.forceSgl (e.btid tid) r.2 }.enterTx tid
        attempts := attempts, entered := tid :: f.entered }
    else { f with engine := { e with backend := r.2 }, attempts := attempts }

/-- The rounds of the retry loop that are left. -/
def flushRounds (f : Flush σ γ) (pending : List ℕ) : ℕ → Flush σ γ × List ℕ
  | 0 => (f, pending)
  | n + 1 =>
      if pending = [] then (f, pending)
      else
        let f' := pending.foldl (attemptBegin B) f
        flushRounds f' (pending.filter fun tid => tid ∉ f'.entered) n

def beginTx (tid : ℕ) : SimEngine σ γ :=
  { e with backend := B.begin (e.btid tid) e.backend }.enterTx tid

def beginSgl (tid : ℕ) : SimEngine σ γ :=
  { e with backend := B.forceSgl (e.btid tid) e.backend }.enterTx tid

/-- The threads that the rounds have left over. -/
def beginRest (entered : List ℕ) (e : SimEngine σ γ) (tid : ℕ) : SimEngine σ γ :=
  if tid ∈ entered then e else e.beginSgl B tid

def flushPendingBegins : SimEngine σ γ :=
  let pending := e.pendingBegins
  let e₁ := { e with pendingBegins := [] }
  if B.isTsxSim then
    let r := flushRounds B { engine := e₁ } pending maxRetries
    r.2.foldl (beginRest B r.1.entered) r.1.engine
  else pending.foldl (beginTx B) e₁

def noteAbort (tid : ℕ) : SimEngine σ γ :=
  { e with
    inTx := Function.update e.inTx tid false
    aborted := Function.update e.aborted tid true
    stats.aborts := e.stats.aborts + 1
    verifier := e.verifier.txAbort tid }

def dispatchTxBegin (tid : ℕ) : SimEngine σ γ :=
  let e₁ :=
    if e.inTx tid then
      { e with
        inTx := Function.update e.inTx tid false
        stats.aborts := e.stats.aborts + 1
        verifier := e.verifier.txAbort tid }
    else e
  e₁.beginTx B tid

def dispatchTxEnd (tid : ℕ) : Except DispatchError Unit × SimEngine σ γ :=
  let e₁ := { e with inTx := Function.update e.inTx tid false }
  if e.aborted tid then
    (.error .txEndAfterAbort, { e₁ with aborted := Function.update e.aborted tid false })
  else
    let r := B.commit (e.btid tid) e.backend
    if r.1 then
      (.ok (),
        { e₁ with
          backend := r.2
          stats.commits := e.stats.commits + 1
          verifier := e.verifier.txCommit tid })
    else
      (.error .commitFailed,
        { e₁ with backend := B.abort (e.btid tid) r.2 }.noteAbort tid)

def dispatchRead (tid : ℕ) (addr : Word) (width : ℕ) :
    Except DispatchError Unit × SimEngine σ γ :=
  let inTx := e.inTx tid
  let e₁ :=
    { e with
      verifier := e.verifier.checkRead tid addr
      stats.readsOutsideTx := e.stats.readsOutsideTx + if inTx then 0 else 1 }
  if supported width then
    let r := B.read (e.btid tid) (e.translateAddr addr) width e.backend
    let e₂ := { e₁ with backend := r.2 }
    match r.1 with
    | none => (.error .abortedDuringRead, e₂.noteAbort tid)
    | some val =>
        (.ok (), if inTx then { e₂ with verifier := e₂.verifier.recordValue addr val } else e₂)
  else (.error (.unsupportedReadWidth width), e₁)

def dispatchWrite (tid : ℕ) (addr : Word) (width : ℕ) (val : Word) :
    Except DispatchError Unit × SimEngine σ γ :=
  let inTx := e.inTx tid
  let e₁ :=
    { e with
      verifier := e.verifier.checkWrite tid addr
      stats.writesOutsideTx := e.stats.writesOutsideTx + if inTx then 0 else 1 }
  if supported width then
    let r := B.write (e.btid tid) (e.translateAddr addr) width (truncate width val) e.backend
    let e₂ := { e₁ with backend := r.2 }
    if r.1 then
      (.ok (), if inTx then { e₂ with verifier := e₂.verifier.recordValue addr val } else e₂)
    else (.error .abortedDuringWrite, e₂.noteAbort tid)
  else (.error (.unsupportedWriteWidth width), e₁)

def dispatchEvent (event : Event) : Except DispatchError Unit × SimEngine σ γ :=
  let tid := event.threadId
  match event.kind with
  | .txBegin => (.ok (), e.dispatchTxBegin B tid)
  | .txEnd => e.dispatchTxEnd B tid
  | .abort reason =>
      (.error (.abort reason), { e with backend := B.abort (e.btid tid) e.backend }.noteAbort tid)
  | .read addr width => e.dispatchRead B tid addr width
  | .write addr width val => e.dispatchWrite B tid addr width val
  | .threadSpawn child => (.ok (), e.ensureThread B child)
  | .alloc addr size => (.ok (), { e with verifier := e.verifier.alloc addr size })
  | .free addr => (.ok (), { e with verifier := e.verifier.free addr })
  | .assert cond msg => (if cond then .ok () else .error (.assertionFailed msg), e)
  | .checkpoint | .log _ | .threadJoin _ | .computation _ => (.ok (), e)

def isTxBegin : EventKind → Bool
  | .txBegin => true
  | _ => false

/-- `process_event` after the begins have been buffered or flushed. -/
def processDispatch (event : Event) : Except DispatchError Unit × SimEngine σ γ :=
  match event.kind with
  | .computation cycles =>
      (.ok (),
        { e with
          computedCycles := e.computedCycles + cycles
          eventsProcessed := e.eventsProcessed + 1 })
  | _ =>
      let r := e.dispatchEvent B event
      (r.1, { r.2 with eventsProcessed := r.2.eventsProcessed + 1 })

def processEvent (event : Event) : Except DispatchError Unit × SimEngine σ γ :=
  let e₁ :=
    { e with stats.totalEvents := e.stats.totalEvents + 1 }.ensureThread B
      (e.btid event.threadId)
  if isTxBegin event.kind then
    if B.isTsxSim then
      (.ok (),
        { e₁ with
          pendingBegins := e₁.pendingBegins ++ [event.threadId]
          eventsProcessed := e₁.eventsProcessed + 1 })
    else e₁.processDispatch B event
  else
    let e₂ := if e₁.pendingBegins = [] then e₁ else e₁.flushPendingBegins B
    e₂.processDispatch B event

/-- An engine after `new` and `init_at`, over a backend with its first thread. -/
def fresh (baseTid : ℕ) (addrAddend : Word) (backend : BackendState σ γ) : SimEngine σ γ where
  backend := backend
  baseTid := baseTid
  addrAddend := addrAddend
  seenThreads := Function.update (fun _ => false) baseTid true

def replay (trace : List Event) : SimEngine σ γ :=
  trace.foldl (fun e event => (e.processEvent B event).2) e

def outcomes (e : SimEngine σ γ) : List Event → List (Except DispatchError Unit)
  | [] => []
  | event :: trace =>
      (e.processEvent B event).1 :: outcomes (e.processEvent B event).2 trace

/-- A checkpoint of `checkpoint.rs`; `backendBlob` is the encoding of the thread states. -/
structure Checkpoint (σ : Type) where
  eventsRemaining : List Event
  eventsProcessed : ℕ
  stats : ReplayStats
  verifier : Verifier
  inTx : ℕ → Bool
  seenThreads : ℕ → Bool
  baseTid : ℕ
  backendBlob : ℕ → σ

def snapshot (eventsRemaining : List Event) : Checkpoint σ where
  eventsRemaining := eventsRemaining
  eventsProcessed := e.eventsProcessed
  stats := e.stats
  verifier := e.verifier
  inTx := e.inTx
  seenThreads := e.seenThreads
  baseTid := e.baseTid
  backendBlob := e.backend.threads

def restore (cp : Checkpoint σ) : SimEngine σ γ :=
  { e with
    backend := { e.backend with threads := cp.backendBlob }
    stats := cp.stats
    verifier := cp.verifier
    inTx := cp.inTx
    seenThreads := cp.seenThreads
    baseTid := cp.baseTid }

end SimEngine

end Simulator
