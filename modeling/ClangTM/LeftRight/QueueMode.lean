import ClangTM.LeftRight.Basic
import ClangTM.Queue.Basic
import ClangTM.Serial.Serializable

/-!
# LeftRight in queue mode

The transactions of `leftright` run inside the tasks of the queue runtime. While
`g_tm_queue_global` is set a transaction keeps no read set and takes no commit lock, so a commit
increments the clock and writes back, whatever the other threads do. The two systems run side by
side: a thread takes steps of a transaction while it executes a task, and comes to the end of the
task when it is outside a transaction.

Here `holder` is the thread that has begun a transaction last and not ended it.
-/

namespace LeftRight.QueueMode

open Serial Transition

variable {A V T : Type} [DecidableEq A]

def commit [DecidableEq V] (σ : Shared A V T) (x : Tx A V) (ws : List (A × V)) :
    Option (Shared A V T × Tx A V) :=
  if x.writeSet = [] then
    some ({ σ with log := σ.log ++ [x.ops], holder := none }, Tx.finish (some true))
  else if x.validate then
    if ws.Perm x.writeSet then some (σ, { x with pc := .tick ws }) else none
  else some ({ σ with holder := none }, Tx.finish (some false))

/-- The write-back of one word; `commit` returns after the last one. -/
def writeBack (σ : Shared A V T) (x : Tx A V) (w : A × V) (rest : List (A × V)) :
    Shared A V T × Tx A V :=
  ({ σ with
      mem := Function.update σ.mem w.1 w.2
      pending := rest
      holder := if rest.isEmpty then none else σ.holder },
    if rest.isEmpty then Tx.finish (some true) else { x with pc := .writeBack rest })

def nextStm [DecidableEq V] (t : T) (σ : Shared A V T) (x : Tx A V) (c : Call A V) :
    Option (Shared A V T × Tx A V) :=
  match x.pc, c with
  | .out, .begin => some ({ σ with holder := some t }, { x with pc := .beginClock })
  | .beginClock, .tau => some (σ, { pc := .body, endVersion := σ.gClock })
  | .body, .read a => some (σ, x.readWord a)
  | .body, .write a v => some (σ, x.writeWord a v)
  | .body, .abort => some ({ σ with holder := none }, Tx.finish none)
  | .body, .commit _ ws => commit σ x ws
  | .readValue a, .tau => some (σ, { x with pc := .body, ops := .read a (σ.mem a) :: x.ops })
  | .tick ws, .tau => some (tick σ x ws)
  | .writeBack (w :: rest), .tau => some (writeBack σ x w rest)
  | _, _ => none

structure Host (A V T : Type) (n : ℕ) where
  queue : Queue.Shared T n
  stm : Shared A V T

structure Worker (A V T : Type) (n : ℕ) where
  queue : Queue.Tx T n
  stm : Tx A V

inductive HostCall (A V : Type)
  | queue (c : Queue.Call)
  | stm (c : Call A V)

def inTask {n : ℕ} : Queue.Pc T n → Bool
  | .run _ | .inline _ => true
  | _ => false

def isOut : Pc A V → Bool
  | .out => true
  | _ => false

variable [DecidableEq V] [DecidableEq T]

def next (P : Queue.Pool T) (t : T) (σ : Host A V T P.numQueues) (x : Worker A V T P.numQueues) :
    HostCall A V → Option (Host A V T P.numQueues × Worker A V T P.numQueues)
  | .queue c =>
      if isOut x.stm.pc then
        (Queue.next P t σ.queue x.queue c).map fun p =>
          ({ σ with queue := p.1 }, { x with queue := p.2 })
      else none
  | .stm c =>
      if inTask x.queue.pc = true ∧ σ.queue.executor = true then
        (nextStm t σ.stm x.stm c).map fun p => ({ σ with stm := p.1 }, { x with stm := p.2 })
      else none

def step (P : Queue.Pool T) : Threads (Host A V T P.numQueues) (Worker A V T P.numQueues) T →
    T × HostCall A V → Option (Threads (Host A V T P.numQueues) (Worker A V T P.numQueues) T) :=
  Threads.step (next P)

def init (P : Queue.Pool T) (main : T) (m₀ : A → V) :
    Threads (Host A V T P.numQueues) (Worker A V T P.numQueues) T where
  shared := ⟨(Queue.init P main).shared, { mem := m₀ }⟩
  tx t := ⟨(Queue.init P main).tx t, {}⟩

/-- A transaction begins only while no other one is running. -/
def Alone {n : ℕ} (s : Threads (Host A V T n) (Worker A V T n) T) (l : T × HostCall A V)
    (_ : Threads (Host A V T n) (Worker A V T n) T) : Prop :=
  match l.2 with
  | .stm .begin => s.shared.stm.holder = none
  | _ => True

instance {n : ℕ} (s : Threads (Host A V T n) (Worker A V T n) T) (l : T × HostCall A V)
    (s' : Threads (Host A V T n) (Worker A V T n) T) : Decidable (Alone s l s') := by
  unfold Alone
  split <;> infer_instance

section Serial

variable {m₀ m : A → V} {σ : Shared A V T} {x : Tx A V} {t : T}

def Reads (m : A → V) (x : Tx A V) : Prop :=
  ∃ rs, Buffered x.ops x.writeSet rs ∧ ∀ r ∈ rs, m r.1 = r.2

def Knows (m : A → V) (σ : Shared A V T) (x : Tx A V) : Prop :=
  match x.pc with
  | .beginClock => σ.mem = m
  | .body => σ.mem = m ∧ Reads m x
  | .readValue a => σ.mem = m ∧ Reads m x ∧ x.writeSet.lookup a = none
  | .tick ws => σ.mem = m ∧ Reads m x ∧ ws.Perm x.writeSet
  | .writeBack rest => writeAll σ.mem rest = m
  | _ => True

/-- Memory while no transaction is running, and what a thread knows. -/
structure Stm (m₀ m : A → V) (t : T) (σ : Shared A V T) (x : Tx A V) : Prop where
  serial : SerialRun m₀ σ.log m
  free : σ.holder = none → σ.mem = m
  inside : isOut x.pc = false → σ.holder = some t
  knows : Knows m σ x

omit [DecidableEq V] [DecidableEq T] in
theorem Reads.legal (h : Reads m x) : Legal m x.ops := by
  obtain ⟨rs, hbuf, hrs⟩ := h
  exact hbuf.legal hrs

omit [DecidableEq V] [DecidableEq T] in
theorem Reads.final_eq (h : Reads m x) {ws : List (A × V)} (hperm : ws.Perm x.writeSet) :
    final m x.ops = writeAll m ws := by
  obtain ⟨rs, hbuf, -⟩ := h
  have hnodup : (ws.map Prod.fst).Nodup := (hperm.map Prod.fst).nodup_iff.2 hbuf.nodup
  funext b
  rw [hbuf.final_eq, writeAll_of_nodup m hnodup, lookup_eq_of_perm hperm hnodup]

omit [DecidableEq T] in
theorem commit_stm (h : Stm m₀ m t σ x) (hpc : x.pc = .body) {ws : List (A × V)}
    {σ' : Shared A V T} {x' : Tx A V} (hnext : commit σ x ws = some (σ', x')) :
    Stm m₀ m t σ' x' := by
  have hknows := h.knows
  simp only [Knows, hpc] at hknows
  obtain ⟨hmem, hreads⟩ := hknows
  unfold commit at hnext
  split at hnext
  · next hws =>
      cases hnext
      have hperm : ([] : List (A × V)).Perm x.writeSet := by rw [hws]
      exact ⟨serialRun_append h.serial ⟨hreads.legal, hreads.final_eq hperm⟩, fun _ => hmem, nofun,
        trivial⟩
  · split at hnext
    · split at hnext <;> cases hnext
      · next hperm =>
          exact ⟨h.serial, h.free, fun _ => h.inside (by rw [hpc]; rfl), hmem, hreads, hperm⟩
    · cases hnext
      exact ⟨h.serial, fun _ => hmem, nofun, trivial⟩

omit [DecidableEq V] [DecidableEq T] in
theorem writeBack_stm (h : Stm m₀ m t σ x) {w : A × V} {rest : List (A × V)}
    (hpc : x.pc = .writeBack (w :: rest)) :
    Stm m₀ m t (writeBack σ x w rest).1 (writeBack σ x w rest).2 := by
  have hknows := h.knows
  simp only [Knows, hpc, writeAll_cons] at hknows
  have hin := h.inside (by rw [hpc]; rfl)
  unfold writeBack
  cases rest with
  | nil => exact ⟨h.serial, fun _ => hknows, nofun, trivial⟩
  | cons w' rest => exact ⟨h.serial, fun hn => by simp [hin] at hn, fun _ => hin, hknows⟩

omit [DecidableEq T] in
/-- A step of a transaction, the only one that is running or the first to begin. -/
theorem nextStm_stm (h : Stm m₀ m t σ x) (hbegin : x.pc = .out → σ.holder = none) {c : Call A V}
    {σ' : Shared A V T} {x' : Tx A V} (hnext : nextStm t σ x c = some (σ', x')) :
    ∃ m', Stm m₀ m' t σ' x' := by
  have hknows := h.knows
  have hin := h.inside
  unfold nextStm at hnext
  split at hnext <;> try cases hnext
  · next hpc => exact ⟨m, h.serial, nofun, fun _ => rfl, h.free (hbegin hpc)⟩
  · next hpc =>
      simp only [Knows, hpc] at hknows
      exact ⟨m, h.serial, h.free, fun _ => hin (by rw [hpc]; rfl), hknows, [], .nil, nofun⟩
  · next a hpc =>
      simp only [Knows, hpc] at hknows
      obtain ⟨hmem, rs, hbuf, hrs⟩ := hknows
      refine ⟨m, h.serial, h.free, fun _ => hin (by rw [hpc]; rfl), ?_⟩
      unfold Tx.readWord
      split
      · next v hv =>
          simp only [Knows, hpc]
          exact ⟨hmem, rs, hbuf.readOwn hv, hrs⟩
      · next hv => exact ⟨hmem, ⟨rs, hbuf, hrs⟩, hv⟩
  · next a v hpc =>
      simp only [Knows, hpc] at hknows
      obtain ⟨hmem, rs, hbuf, hrs⟩ := hknows
      refine ⟨m, h.serial, h.free, fun _ => hin (by rw [hpc]; rfl), ?_⟩
      simp only [Knows, Tx.writeWord, hpc]
      exact ⟨hmem, rs, hbuf.write a v, hrs⟩
  · next hpc =>
      simp only [Knows, hpc] at hknows
      exact ⟨m, h.serial, fun _ => hknows.1, nofun, trivial⟩
  · next rs ws hpc => exact ⟨m, commit_stm h hpc hnext⟩
  · next a hpc =>
      simp only [Knows, hpc] at hknows
      obtain ⟨hmem, ⟨rs, hbuf, hrs⟩, hnone⟩ := hknows
      refine ⟨m, h.serial, h.free, fun _ => hin (by rw [hpc]; rfl), hmem, rs ++ [(a, σ.mem a)],
        hbuf.read hnone, fun r hr => ?_⟩
      rcases List.mem_append.1 hr with hr | hr
      · exact hrs r hr
      · rw [List.mem_singleton.1 hr, hmem]
  · next ws hpc =>
      simp only [Knows, hpc] at hknows
      obtain ⟨hmem, hreads, hperm⟩ := hknows
      have hin := hin (by rw [hpc]; rfl)
      refine ⟨final m x.ops, serialRun_append h.serial ⟨hreads.legal, rfl⟩,
        fun hn => by simp [hin] at hn, fun _ => hin, ?_⟩
      simp only [Knows]
      rw [hmem, hreads.final_eq hperm]
  · next w rest hpc => exact ⟨m, writeBack_stm h hpc⟩

end Serial

section Run

variable {P : Queue.Pool T} {main : T} {m₀ m : A → V}
  {s s' : Threads (Host A V T P.numQueues) (Worker A V T P.numQueues) T}

theorem stm_step (hi : ∀ t, Stm m₀ m t s.shared.stm (s.tx t).stm) {l : T × HostCall A V}
    (hs : step P s l = some s') (hok : Alone s l s') :
    ∃ m', ∀ t, Stm m₀ m' t s'.shared.stm (s'.tx t).stm := by
  obtain ⟨t, c⟩ := l
  obtain ⟨σ, x, hnext, rfl⟩ := Threads.step_eq_some hs
  unfold next at hnext
  cases c with
  | queue c =>
      dsimp only at hnext
      split at hnext
      · obtain ⟨p, -, heq⟩ := Option.map_eq_some_iff.1 hnext
        cases heq
        exact ⟨m, Threads.forall_put (P := fun u (y : Worker A V T P.numQueues) =>
          Stm m₀ m u s.shared.stm y.stm) (hi t)
          fun u _ => hi u⟩
      · cases hnext
  | stm c =>
      dsimp only at hnext
      split at hnext
      · obtain ⟨p, hp, heq⟩ := Option.map_eq_some_iff.1 hnext
        cases heq
        have hbegin : (s.tx t).stm.pc = .out → s.shared.stm.holder = none := by
          intro hpc
          unfold nextStm at hp
          rw [hpc] at hp
          cases c <;> first | exact hok | cases hp
        obtain ⟨m', h⟩ := nextStm_stm (hi t) hbegin hp
        refine ⟨m', Threads.forall_put (P := fun u (y : Worker A V T P.numQueues) =>
          Stm m₀ m' u p.1 y.stm) h fun u hu => ?_⟩
        -- a second transaction would be inside, and so the holder
        have hout : isOut (s.tx u).stm.pc = true := by
          by_contra hu'
          have hhold := (hi u).inside (by simpa using hu')
          cases ht : isOut (s.tx t).stm.pc with
          | true =>
              have hpc : (s.tx t).stm.pc = .out := by
                cases hpc : (s.tx t).stm.pc <;> simp_all [isOut]
              rw [hbegin hpc] at hhold
              cases hhold
          | false =>
              rw [(hi t).inside ht] at hhold
              exact hu (Option.some.inj hhold).symm
        refine ⟨h.serial, h.free, fun hf => by simp [hout] at hf, ?_⟩
        unfold Knows
        cases hpc : (s.tx u).stm.pc <;> simp_all [isOut]
      · cases hnext

omit [DecidableEq V] in
theorem stm_init (t : T) :
    Stm m₀ m₀ t (init P main m₀).shared.stm ((init P main m₀).tx t).stm :=
  ⟨rfl, fun _ => rfl, nofun, trivial⟩

theorem stm_run (hr : Run (step P) Alone (init P main m₀) s) :
    ∃ m, ∀ t, Stm m₀ m t s.shared.stm (s.tx t).stm := by
  refine hr.induction_on (P := fun s => ∃ m, ∀ t, Stm m₀ m t s.shared.stm (s.tx t).stm)
    ⟨m₀, stm_init⟩ ?_
  rintro s₁ l s₂ - ⟨m, hi⟩ hs hok
  exact stm_step hi hs hok

end Run

def pairPool (n : ℕ) : Queue.Pool ℕ :=
  ⟨n + 2, [1, 2], Nat.succ_pos (n + 1), List.cons_ne_nil 1 [2]⟩

def submit (queue : ℤ) : List (ℕ × HostCall Bool Bool) :=
  Threads.calls 0 [.queue (.enqueueEx queue), .queue .tau, .queue .tau, .queue .tau, .queue .tau,
    .queue .tau]

def takeTask (t : ℕ) : List (ℕ × HostCall Bool Bool) :=
  Threads.calls t [.queue .tau, .queue .tau, .stm .begin, .stm .tau, .stm (.read true), .stm .tau]

def finishTask (t : ℕ) : List (ℕ × HostCall Bool Bool) :=
  Threads.calls t [.stm (.write true true), .stm (.commit [] [(true, true)]), .stm .tau, .stm .tau]

end LeftRight.QueueMode
