import ClangTM.Simulator.Engine.Atomic
import ClangTM.Simulator.Engine.Flush

/-!
# Checkpoints of the engine

A checkpoint holds the statistics, the verifier, `in_tx`, the threads seen and the thread states
of the backend. It does not hold `aborted` and `pending_begins`, and `restore` leaves both as
they are in the engine it restores into, which in a fresh engine is empty. A restored engine
therefore goes on as the engine that was saved exactly when both are empty at the split: a
thread with `aborted` set has its next `TxEnd` skipped in the one and committed in the other,
and a buffered `TxBegin` is flushed in the one and lost in the other.
-/

namespace Simulator.SimEngine

variable {σ γ : Type} (B : Backend σ γ) (e : SimEngine σ γ)

/-- The engine with other counters, which it never reads. -/
def withCounters (n c : ℕ) : SimEngine σ γ :=
  { e with eventsProcessed := n, computedCycles := c }

section Counters

variable (n c : ℕ)

theorem ensureThread_withCounters (tid : ℕ) :
    (e.withCounters n c).ensureThread B tid = (e.ensureThread B tid).withCounters n c := by
  unfold ensureThread
  cases h : e.seenThreads tid <;> simp [withCounters, h]

theorem dispatchTxBegin_withCounters (tid : ℕ) :
    (e.withCounters n c).dispatchTxBegin B tid = (e.dispatchTxBegin B tid).withCounters n c := by
  unfold dispatchTxBegin
  cases h : e.inTx tid <;> simp [withCounters, beginTx, enterTx, btid, h]

theorem dispatchTxEnd_withCounters (tid : ℕ) :
    (e.withCounters n c).dispatchTxEnd B tid =
      ((e.dispatchTxEnd B tid).1, (e.dispatchTxEnd B tid).2.withCounters n c) := by
  unfold dispatchTxEnd
  cases h : e.aborted tid <;> cases hc : (B.commit (e.baseTid + tid) e.backend).1 <;>
    simp [withCounters, noteAbort, btid, h, hc]

theorem dispatchRead_withCounters (tid : ℕ) (addr : Word) (width : ℕ) :
    (e.withCounters n c).dispatchRead B tid addr width =
      ((e.dispatchRead B tid addr width).1,
        (e.dispatchRead B tid addr width).2.withCounters n c) := by
  unfold dispatchRead
  cases hw : supported width <;> cases h : e.inTx tid <;>
    cases hr : (B.read (e.baseTid + tid) (addr + e.addrAddend) width e.backend).1 <;>
    simp [withCounters, noteAbort, btid, translateAddr, h, hr]

theorem dispatchWrite_withCounters (tid : ℕ) (addr : Word) (width : ℕ) (val : Word) :
    (e.withCounters n c).dispatchWrite B tid addr width val =
      ((e.dispatchWrite B tid addr width val).1,
        (e.dispatchWrite B tid addr width val).2.withCounters n c) := by
  unfold dispatchWrite
  cases hw : supported width <;> cases h : e.inTx tid <;>
    cases hr : (B.write (e.baseTid + tid) (addr + e.addrAddend) width (truncate width val)
      e.backend).1 <;>
    simp [withCounters, noteAbort, btid, translateAddr, h, hr]

theorem dispatchEvent_withCounters (event : Event) :
    (e.withCounters n c).dispatchEvent B event =
      ((e.dispatchEvent B event).1, (e.dispatchEvent B event).2.withCounters n c) := by
  unfold dispatchEvent
  cases event.kind with
  | txBegin => exact congrArg (Prod.mk _) (dispatchTxBegin_withCounters B e n c _)
  | txEnd => exact dispatchTxEnd_withCounters B e n c _
  | read addr width => exact dispatchRead_withCounters B e n c _ addr width
  | write addr width val => exact dispatchWrite_withCounters B e n c _ addr width val
  | threadSpawn child => exact congrArg (Prod.mk _) (ensureThread_withCounters B e n c child)
  | _ => rfl

def Flush.withCounters (f : Flush σ γ) : Flush σ γ :=
  { f with engine := f.engine.withCounters n c }

theorem attemptBegin_withCounters (f : Flush σ γ) (tid : ℕ) :
    attemptBegin B (f.withCounters n c) tid = (attemptBegin B f tid).withCounters n c := by
  unfold attemptBegin
  by_cases hin : tid ∈ f.entered
  · simp [Flush.withCounters, hin]
  · cases h : (B.tryBegin (f.engine.baseTid + tid) f.engine.backend).1 <;>
      by_cases hm : maxRetries ≤ f.attempts tid + 1 <;>
      simp [Flush.withCounters, withCounters, enterTx, btid, hin, h, hm]

theorem flushRounds_withCounters (f : Flush σ γ) (pending : List ℕ) (k : ℕ) :
    flushRounds B (f.withCounters n c) pending k =
      ((flushRounds B f pending k).1.withCounters n c, (flushRounds B f pending k).2) := by
  induction k generalizing f pending with
  | zero => rfl
  | succ k ih =>
      have hfold : pending.foldl (attemptBegin B) (f.withCounters n c) =
          (pending.foldl (attemptBegin B) f).withCounters n c :=
        List.foldl_hom (Flush.withCounters n c) fun f tid => attemptBegin_withCounters B n c f tid
      unfold flushRounds
      split
      · rfl
      · rw [hfold]
        exact ih _ _

theorem beginTx_withCounters (tid : ℕ) :
    (e.withCounters n c).beginTx B tid = (e.beginTx B tid).withCounters n c :=
  rfl

theorem beginRest_withCounters (entered : List ℕ) (tid : ℕ) :
    beginRest B entered (e.withCounters n c) tid = (beginRest B entered e tid).withCounters
        n c := by
  unfold beginRest
  split <;> rfl

theorem flushPendingBegins_withCounters :
    (e.withCounters n c).flushPendingBegins B = (e.flushPendingBegins B).withCounters n c := by
  unfold flushPendingBegins
  dsimp only
  split
  · rw [show ({ engine := { e.withCounters n c with pendingBegins := [] } } : Flush σ γ) =
      Flush.withCounters n c { engine := { e with pendingBegins := [] } } from rfl,
      show (e.withCounters n c).pendingBegins = e.pendingBegins from rfl,
      flushRounds_withCounters]
    generalize flushRounds B { engine := { e with pendingBegins := [] } } e.pendingBegins
      maxRetries = r
    exact List.foldl_hom (fun e : SimEngine σ γ => e.withCounters n c) fun e tid =>
      beginRest_withCounters B e n c r.1.entered tid
  · exact (List.foldl_hom (fun e : SimEngine σ γ => e.withCounters n c) fun e tid =>
      beginTx_withCounters B e n c tid :
      List.foldl (beginTx B) (withCounters { e with pendingBegins := [] } n c) _ = _)

end Counters

theorem processDispatch_withCounters (event : Event) (n c : ℕ) : ∃ n' c',
    (e.withCounters n c).processDispatch B event =
      ((e.processDispatch B event).1, (e.processDispatch B event).2.withCounters n' c') := by
  have hdispatch := dispatchEvent_withCounters B e n c event
  unfold processDispatch
  split
  · exact ⟨n + 1, _, rfl⟩
  · refine ⟨n + 1, c, ?_⟩
    rw [hdispatch]
    rfl

theorem processEvent_withCounters (event : Event) (n c : ℕ) : ∃ n' c',
    (e.withCounters n c).processEvent B event =
      ((e.processEvent B event).1, (e.processEvent B event).2.withCounters n' c') := by
  have hensure := ensureThread_withCounters B
    { e with stats.totalEvents := e.stats.totalEvents + 1 } n c (e.btid event.threadId)
  unfold processEvent
  dsimp only
  rw [show ({ e.withCounters n c with
      stats.totalEvents := (e.withCounters n c).stats.totalEvents + 1 } : SimEngine σ γ) =
    withCounters { e with stats.totalEvents := e.stats.totalEvents + 1 } n c from rfl,
    show (e.withCounters n c).btid event.threadId = e.btid event.threadId from rfl, hensure]
  generalize ({ e with stats.totalEvents := e.stats.totalEvents + 1 } : SimEngine σ γ).ensureThread
    B (e.btid event.threadId) = e₁
  split
  · split
    · exact ⟨n + 1, c, rfl⟩
    · exact processDispatch_withCounters B e₁ event n c
  · rw [show (e₁.withCounters n c).pendingBegins = e₁.pendingBegins from rfl]
    split
    · exact processDispatch_withCounters B e₁ event n c
    · rw [flushPendingBegins_withCounters]
      exact processDispatch_withCounters B _ event n c

theorem replay_withCounters (trace : List Event) (n c : ℕ) :
    (∃ n' c', (e.withCounters n c).replay B trace = (e.replay B trace).withCounters n' c') ∧
      outcomes B (e.withCounters n c) trace = outcomes B e trace := by
  induction trace generalizing e n c with
  | nil => exact ⟨⟨n, c, rfl⟩, rfl⟩
  | cons event trace ih =>
      obtain ⟨n', c', hevent⟩ := processEvent_withCounters B e event n c
      obtain ⟨hreplay, houtcomes⟩ := ih (e.processEvent B event).2 n' c'
      constructor
      · rw [replay, List.foldl_cons, hevent]
        exact hreplay
      · rw [outcomes, outcomes, hevent]
        exact congrArg _ houtcomes

def depth (tid : ℕ) : ℕ := (e.verifier.txDepth tid).getD 0

section Depth

variable {B} {e}

theorem depth_enterTx (tid u : ℕ) :
    (e.enterTx tid).depth u = if u = tid then e.depth u + 1 else e.depth u := by
  unfold depth enterTx Verifier.txBegin
  dsimp only
  by_cases hu : u = tid
  · subst hu
    simp
  · simp [hu]

/-- The threads of a list have gone one transaction deeper, at least. -/
def Deeper (e e' : SimEngine σ γ) (entered : List ℕ) : Prop :=
  ∀ u, e.depth u + (if u ∈ entered then 1 else 0) ≤ e'.depth u

theorem Deeper.enterTx {e' : SimEngine σ γ} {entered : List ℕ} (h : Deeper e e' entered)
    (e'' : SimEngine σ γ) (hv : e''.verifier = e'.verifier) (tid : ℕ) :
    Deeper e (e''.enterTx tid) (tid :: entered) := by
  intro u
  have hu := h u
  have hdepth : e''.depth u = e'.depth u := by rw [depth, hv, depth]
  rw [depth_enterTx, hdepth]
  by_cases heq : u = tid
  · rw [if_pos heq, if_pos (heq ▸ List.mem_cons_self)]
    omega
  · simpa [heq] using hu

theorem Deeper.foldl_beginTx {e' : SimEngine σ γ} {entered : List ℕ} (h : Deeper e e' entered)
    (pending : List ℕ) :
    ∃ entered', (∀ u ∈ pending, u ∈ entered') ∧ entered ⊆ entered' ∧
      Deeper e (pending.foldl (beginTx B) e') entered' := by
  induction pending generalizing e' entered with
  | nil => exact ⟨entered, fun u hu => absurd hu List.not_mem_nil, List.Subset.refl _, h⟩
  | cons tid pending ih =>
      obtain ⟨entered', hall, hsub, hdeeper⟩ :=
        ih (h.enterTx { e' with backend := B.begin (e'.btid tid) e'.backend } rfl tid)
      refine ⟨entered', fun u hu => ?_, fun u hu => hsub (List.mem_cons_of_mem _ hu), hdeeper⟩
      rcases List.mem_cons.1 hu with rfl | hu
      · exact hsub List.mem_cons_self
      · exact hall u hu

theorem depth_flush {u : ℕ} (hu : u ∈ e.pendingBegins) :
    e.depth u < (e.flushPendingBegins B).depth u := by
  have hstart : Deeper e { e with pendingBegins := [] } [] := fun v => le_rfl
  obtain ⟨entered, hall, hdeeper⟩ :
      ∃ entered, (∀ v ∈ e.pendingBegins, v ∈ entered) ∧
        Deeper e (e.flushPendingBegins B) entered := by
    cases htsx : B.isTsxSim with
    | true =>
        refine flush_induction htsx (fun tid e₁ entered e' entered' h _ _ hstep => ?_) hstart
        cases hstep with
        | fail => exact h
        | enter => exact h.enterTx { e₁ with backend := _ } rfl tid
        | sgl => exact h.enterTx { e₁ with backend := _ } rfl tid
    | false =>
        obtain ⟨entered, hall, -, hdeeper⟩ := hstart.foldl_beginTx (B := B) e.pendingBegins
        refine ⟨entered, hall, ?_⟩
        rw [flushPendingBegins]
        dsimp only
        rw [if_neg (by simp [htsx])]
        exact hdeeper
  have hlt := hdeeper u
  rw [if_pos (hall u hu)] at hlt
  omega

end Depth

/-- A checkpoint of the engine, restored into a fresh one over a backend with other thread
states and the same global state. -/
def resumed (baseTid : ℕ) (threads : ℕ → σ) (rest : List Event) : SimEngine σ γ :=
  (fresh baseTid e.addrAddend ⟨threads, e.backend.shared⟩).restore (e.snapshot rest)

variable {e}

/-- An engine without aborted attempts and buffered begins is restored as it was, up to its
counters. -/
theorem resumed_eq (haborted : ∀ tid, e.aborted tid = false) (hpending : e.pendingBegins = [])
    (baseTid : ℕ) (threads : ℕ → σ) (rest : List Event) :
    e.resumed baseTid threads rest = e.withCounters 0 0 := by
  have haborted : e.aborted = fun _ => false := funext haborted
  unfold resumed restore withCounters
  rw [haborted, hpending]
  rfl

section FirstEvent

variable (e) in
/-- The engine as it is when an event has been counted and its thread is known. -/
theorem ensureThread_fields (tid : ℕ) :
    (e.ensureThread B tid).verifier = e.verifier ∧ (e.ensureThread B tid).stats = e.stats ∧
      (e.ensureThread B tid).aborted = e.aborted ∧
      (e.ensureThread B tid).pendingBegins = e.pendingBegins := by
  unfold ensureThread
  split <;> exact ⟨rfl, rfl, rfl, rfl⟩

/-- An event that does nothing leaves the verifier as it is when nothing is buffered. -/
theorem verifier_checkpoint (hpending : e.pendingBegins = []) :
    (e.processEvent B ⟨0, .checkpoint⟩).2.verifier = e.verifier := by
  obtain ⟨hverifier, -, -, hpend⟩ := ensureThread_fields B
    { e with stats.totalEvents := e.stats.totalEvents + 1 } (e.btid 0)
  unfold processEvent
  dsimp only
  rw [if_neg (by simp [isTxBegin]), if_pos (hpend.trans hpending)]
  exact hverifier

theorem depth_checkpoint {u : ℕ} (hu : u ∈ e.pendingBegins) :
    e.depth u < (e.processEvent B ⟨0, .checkpoint⟩).2.depth u := by
  obtain ⟨hverifier, -, -, hpend⟩ := ensureThread_fields B
    { e with stats.totalEvents := e.stats.totalEvents + 1 } (e.btid 0)
  have hne : e.pendingBegins ≠ [] := List.ne_nil_of_mem hu
  unfold processEvent
  dsimp only
  rw [if_neg (by simp [isTxBegin]), if_neg (by rw [hpend]; exact hne)]
  have hlt := depth_flush (B := B) (u := u)
    (e := ensureThread B { e with stats.totalEvents := e.stats.totalEvents + 1 } (e.btid 0))
    (by rw [hpend]; exact hu)
  rw [depth, hverifier] at hlt
  exact hlt

/-- A `TxEnd` is counted as a commit or an abort, unless its attempt has been aborted before. -/
theorem stats_txEnd (hpending : e.pendingBegins = []) (tid : ℕ) :
    (e.processEvent B ⟨tid, .txEnd⟩).2.stats.commits +
        (e.processEvent B ⟨tid, .txEnd⟩).2.stats.aborts =
      e.stats.commits + e.stats.aborts + if e.aborted tid then 0 else 1 := by
  obtain ⟨-, hstats, haborted, hpend⟩ := ensureThread_fields B
    { e with stats.totalEvents := e.stats.totalEvents + 1 } (e.btid tid)
  unfold processEvent
  dsimp only
  rw [if_neg (by simp [isTxBegin]), if_pos (hpend.trans hpending)]
  generalize ensureThread B { e with stats.totalEvents := e.stats.totalEvents + 1 }
    (e.btid tid) = e₁ at hstats haborted
  have haborted : e₁.aborted tid = e.aborted tid := congrFun haborted tid
  have hcommits : e₁.stats.commits = e.stats.commits := by rw [hstats]
  have haborts : e₁.stats.aborts = e.stats.aborts := by rw [hstats]
  show (e₁.dispatchTxEnd B tid).2.stats.commits + (e₁.dispatchTxEnd B tid).2.stats.aborts = _
  rw [← hcommits, ← haborts, ← haborted]
  unfold dispatchTxEnd
  dsimp only
  split
  · rfl
  · split
    · show e₁.stats.commits + 1 + e₁.stats.aborts = _
      omega
    · exact (Nat.add_assoc _ _ _).symm

end FirstEvent

def staleRead : List Event :=
  [⟨0, .txBegin⟩, ⟨0, .read 0 8⟩, ⟨1, .txBegin⟩, ⟨1, .write 0 8 1⟩, ⟨1, .txEnd⟩, ⟨0, .read 0 8⟩]

end Simulator.SimEngine
