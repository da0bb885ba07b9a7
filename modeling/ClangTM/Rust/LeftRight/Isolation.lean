import ClangTM.Rust.LeftRight.Stage

/-!
# Isolation of the left-right backend

The write lock is taken at the first write. What a transaction has read before is neither
locked nor looked at again, so that two transactions can read a cell, and then write it one
after the other. `Isolated` is the condition under which transactions are isolated: when a
thread loads a value, takes the lock, or commits without writes, nobody else is publishing
its writes, and what the thread has read is still there.
-/

namespace Rust.LeftRight

open Serial Transition

def accessed : Call → List Access
  | .read a w => [⟨a, w⟩]
  | .write a _ w => [⟨a, w⟩]
  | _ => []

/-- A step that loads a value, takes the write lock, or commits without writes. -/
def relies (σ : Shared) (x : Tx) (c : Call) : Bool :=
  match x.pc with
  | .idle => c = .commit && x.writeSet = []
  | .readMap .. | .readMem .. => true
  | .writeCas .. => !σ.lock
  | _ => false

section Isolated

variable {T : Type} (C : Access → Prop)

/-- The calls access cells of `C`; and a thread that loads a value, takes the lock or commits
without writes finds nobody else publishing, and every cell it has read as it was. -/
def Isolated (s : Threads (Book T) Session T) (l : T × Call) (_ : Threads (Book T) Session T) :
    Prop :=
  (∀ k ∈ accessed l.2, C k) ∧
    (relies s.shared.globals (s.tx l.1).tx l.2 = true →
      (∀ u, u ≠ l.1 → publishing (s.tx u).tx = false) ∧
        ∀ p ∈ external (s.tx l.1).ops, current s.shared.globals p.1 = p.2)

instance [Fintype T] [DecidableEq T] [DecidablePred C] (s : Threads (Book T) Session T)
    (l : T × Call) (s' : Threads (Book T) Session T) : Decidable (Isolated C s l s') :=
  inferInstanceAs (Decidable (_ ∧ _))

end Isolated

/-- The value that a thread has loaded and not returned yet. -/
def loaded : Pc → List (Access × Word)
  | .readSub a w _ (some v) => [(⟨a, w⟩, w.low v)]
  | _ => []

def settled {T : Type} (m₀ : Addr → BitVec 8) (g : Book T) : Access → Word :=
  memAt (fun k => k.load m₀) g.log g.writers

/-- What a thread has read from the copies and memory, the value just loaded included. -/
def Session.seen (x : Session) : List (Access × Word) := external x.ops ++ loaded x.tx.pc

def Here (C : Access → Prop) (σ : Shared) (x : Session) : Prop :=
  match x.tx.pc with
  | .idle => True
  | .writeCas a _ w => x.inTx = true ∧ C ⟨a, w⟩ ∧ x.tx.lockHeld = false
  | .writeActive a _ w | .writeOld a _ w _ => x.inTx = true ∧ C ⟨a, w⟩ ∧ x.tx.lockHeld = true
  | .writeMap a _ w _ oldVal =>
      x.inTx = true ∧ C ⟨a, w⟩ ∧ x.tx.lockHeld = true ∧ oldVal = σ.maps .right a
  | .abortActive _ | .abortUndo .. | .commitActive _ | .commitFlip .. | .commitDrain ..
  | .commitSyncRead .. | .commitMem _ => x.inTx = false ∧ x.tx.lockHeld = true
  | .commitSyncWrite _ a v _ _ =>
      x.inTx = false ∧ x.tx.lockHeld = true ∧ σ.maps .right a = some v
  | .release => x.inTx = false
  | .readActive a w | .readAdd a w _ | .readCheck a w _ | .readBack a w _ | .readMap a w _
  | .readSub a w _ _ | .readMem a w =>
      x.inTx = true ∧ C ⟨a, w⟩ ∧ lastVal x.tx.writeSet.reverse a = none

/-- What a transaction has recorded agrees with its write set. -/
structure Recorded (C : Access → Prop) (x : Session) : Prop where
  cells : ∀ e ∈ x.tx.writeSet, C ⟨e.addr, e.width⟩
  writes : x.inTx = true → ∀ k, C k →
    lastWrite x.ops k = (lastVal x.tx.writeSet.reverse k.addr).map k.width.low
  only : ∀ k v, lastWrite x.ops k = some v → C k
  self : SelfConsistent x.ops
  reads : ∀ p ∈ x.seen, C p.1

structure TxInv {T : Type} (C : Access → Prop) (m₀ : Addr → BitVec 8) (g : Book T) (x : Session) :
    Prop where
  recorded : Recorded C x
  outside : x.inTx = false → x.tx.writeSet = [] ∧ (x.tx.pc = .idle → x.tx.lockHeld = false)
  unlocked : x.tx.lockHeld = false → x.tx.writeSet = []
  snapshot : x.inTx = true → ∃ n ≤ g.writers, ∀ p ∈ x.seen,
    memAt (fun k => k.load m₀) g.log n p.1 = p.2
  current : x.inTx = true → x.tx.lockHeld = true → ∀ p ∈ x.seen, settled m₀ g p.1 = p.2
  here : Here C g.globals x

/-- The committed transactions are legal where they stand. -/
structure Hist {T : Type} (m₀ : Addr → BitVec 8) (g : Book T) : Prop where
  upTo : ∀ n, g.writers < n → g.log n = none
  legal : ∀ n w, 0 < n → g.log n = some w → Legal (memAt (fun k => k.load m₀) g.log (n - 1)) w
  ro : ∀ r ∈ g.ro, r.1 ≤ g.writers ∧ Legal (memAt (fun k => k.load m₀) g.log r.1) r.2 ∧
    ∀ k, lastWrite r.2 k = none

def work {T : Type} (s : Threads (Book T) Session T) : Stage :=
  match s.shared.holder with
  | none => .writing []
  | some t => stage (s.tx t).tx

structure SessionInv {T : Type} (C : Access → Prop) (m₀ : Addr → BitVec 8)
    (s : Threads (Book T) Session T) : Prop where
  holder : ∀ t, (s.tx t).tx.lockHeld = true ↔ s.shared.holder = some t
  free : s.shared.globals.lock = false ↔ s.shared.holder = none
  stage : StageInv C (settled m₀ s.shared) s.shared.globals (work s)
  hist : Hist m₀ s.shared
  tx : ∀ t, TxInv C m₀ s.shared (s.tx t)

section Stable

variable {T : Type} {C : Access → Prop} {m₀ : Addr → BitVec 8} {g g' : Book T} {x : Session}

theorem TxInv.congr (h : TxInv C m₀ g x) (hmaps : g'.globals.maps = g.globals.maps)
    (hlog : g'.log = g.log) (hwriters : g'.writers = g.writers) : TxInv C m₀ g' x where
  recorded := h.recorded
  outside := h.outside
  unlocked := h.unlocked
  snapshot := by
    rw [hlog, hwriters]
    exact h.snapshot
  current := by
    unfold settled
    rw [hlog, hwriters]
    exact h.current
  here := by
    have hhere := h.here
    unfold Here at hhere ⊢
    rw [hmaps]
    exact hhere

theorem TxInv.later (h : TxInv C m₀ g x) (hlock : x.tx.lockHeld = false)
    (hle : g.writers ≤ g'.writers)
    (hmem : ∀ n ≤ g.writers, memAt (fun k => k.load m₀) g'.log n = memAt
        (fun k => k.load m₀) g.log n) :
    TxInv C m₀ g' x where
  recorded := h.recorded
  outside := h.outside
  unlocked := h.unlocked
  snapshot hin := by
    obtain ⟨n, hn, hseen⟩ := h.snapshot hin
    exact ⟨n, hn.trans hle, fun p hp => by rw [hmem n hn, hseen p hp]⟩
  current _ hheld := by
    rw [hlock] at hheld
    cases hheld
  here := by
    have hhere := h.here
    unfold Here at hhere ⊢
    cases hpc : x.tx.pc with
    | writeMap a v w inactive oldVal =>
        rw [hpc] at hhere
        simp [hlock] at hhere
    | commitSyncWrite activeWasLeft a v rest ws =>
        rw [hpc] at hhere
        simp [hlock] at hhere
    | _ =>
        rw [hpc] at hhere
        exact hhere

theorem move_same (g : Book T) (t : T) {σ : Shared} (h : σ.lock = g.globals.lock) :
    g.move t σ = { g with globals := σ } := by
  simp [Book.move, h]

end Stable

structure Good {T : Type} [DecidableEq T] (C : Access → Prop) (m₀ : Addr → BitVec 8)
    (s : Threads (Book T) Session T) (t : T) (g' : Book T) (x' : Session) : Prop where
  holder : x'.tx.lockHeld = true ↔ g'.holder = some t
  others : ∀ u, u ≠ t → (g'.holder = some u ↔ s.shared.holder = some u)
  free : g'.globals.lock = false ↔ g'.holder = none
  stage : StageInv C (settled m₀ g') g'.globals (work (s.put t g' x'))
  hist : Hist m₀ g'
  tx : TxInv C m₀ g' x'
  stable : ∀ u, u ≠ t → TxInv C m₀ s.shared (s.tx u) → TxInv C m₀ g' (s.tx u)

section Good

variable {T : Type} [DecidableEq T] {C : Access → Prop} {m₀ : Addr → BitVec 8}
  {s : Threads (Book T) Session T} {t : T} {g' : Book T} {x' : Session}

theorem Good.inv (hg : Good C m₀ s t g' x') (h : SessionInv C m₀ s) :
    SessionInv C m₀ (s.put t g' x') where
  holder := Threads.forall_put (P := fun u (y : Session) => y.tx.lockHeld = true ↔
    g'.holder = some u) hg.holder fun u hu => (h.holder u).trans (hg.others u hu).symm
  free := hg.free
  stage := hg.stage
  hist := hg.hist
  tx := Threads.forall_put (P := fun _ y => TxInv C m₀ g' y) hg.tx fun u hu => hg.stable u hu
      (h.tx u)

theorem work_put_self (h : g'.holder = some t) : work (s.put t g' x') = stage x'.tx := by
  unfold work
  rw [Threads.put_shared, h]
  exact congrArg (fun y : Session => stage y.tx) Threads.put_tx_self

variable (h : SessionInv C m₀ s)
include h

omit [DecidableEq T] in
theorem not_held {u : T} (hu : u ≠ t) (ht : (s.tx t).tx.lockHeld = true) :
    (s.tx u).tx.lockHeld = false := by
  rw [Bool.eq_false_iff, ne_eq, h.holder u, (h.holder t).1 ht]
  simp [hu.symm]

omit [DecidableEq T] in
theorem work_eq (ht : (s.tx t).tx.lockHeld = true) : work s = stage (s.tx t).tx := by
  rw [work, (h.holder t).1 ht]

omit [DecidableEq T] in
theorem stageInv (ht : (s.tx t).tx.lockHeld = true) {st : Stage} (hst : stage (s.tx t).tx = st) :
    StageInv C (settled m₀ s.shared) s.shared.globals st := by
  rw [← hst, ← work_eq h ht]
  exact h.stage

/-- A step that changes neither the copies nor memory nor who holds the lock. -/
theorem good_quiet (hmaps : g'.globals.maps = s.shared.globals.maps)
    (hmem : g'.globals.mem = s.shared.globals.mem)
    (hlock : g'.globals.lock = s.shared.globals.lock) (hholder : g'.holder = s.shared.holder)
    (hlog : g'.log = s.shared.log) (hwriters : g'.writers = s.shared.writers)
    (hheld : x'.tx.lockHeld = (s.tx t).tx.lockHeld)
    (hstage : (s.tx t).tx.lockHeld = true → stage x'.tx = stage (s.tx t).tx) (hhist : Hist m₀ g')
    (htx : TxInv C m₀ s.shared x') : Good C m₀ s t g' x' where
  holder := by
    rw [hheld, hholder]
    exact h.holder t
  others u _ := by rw [hholder]
  free := by
    rw [hlock, hholder]
    exact h.free
  stage := by
    have hwork : work (s.put t g' x') = work s := by
      by_cases ht : (s.tx t).tx.lockHeld = true
      · rw [work_put_self (hholder.trans ((h.holder t).1 ht)), work_eq h ht, hstage ht]
      · unfold work
        rw [Threads.put_shared, hholder]
        cases hu : s.shared.holder with
        | none => rfl
        | some u =>
            have hne : u ≠ t := fun heq => ht ((h.holder t).2 (heq ▸ hu))
            exact congrArg (fun y : Session => LeftRight.stage y.tx) (Threads.put_tx_of_ne hne)
    have hsettled : settled m₀ g' = settled m₀ s.shared := by
      unfold settled
      rw [hlog, hwriters]
    rw [hwork, hsettled]
    exact h.stage.congr hmaps hmem
  hist := hhist
  tx := htx.congr hmaps hlog hwriters
  stable u _ hu := hu.congr hmaps hlog hwriters

theorem good_move {σ' : Shared} (hmaps : σ'.maps = s.shared.globals.maps)
    (hmem : σ'.mem = s.shared.globals.mem) (hlock : σ'.lock = s.shared.globals.lock)
    (hheld : x'.tx.lockHeld = (s.tx t).tx.lockHeld)
    (hstage : (s.tx t).tx.lockHeld = true → stage x'.tx = stage (s.tx t).tx)
    (htx : TxInv C m₀ s.shared x') : Good C m₀ s t (s.shared.move t σ') x' := by
  rw [move_same _ _ hlock]
  exact good_quiet h hmaps hmem hlock rfl rfl rfl hheld hstage
    ⟨h.hist.upTo, h.hist.legal, h.hist.ro⟩ htx

theorem good_holder (ht : (s.tx t).tx.lockHeld = true) (hheld : x'.tx.lockHeld = true)
    (hholder : g'.holder = s.shared.holder) (hlock : g'.globals.lock = s.shared.globals.lock)
    (hle : s.shared.writers ≤ g'.writers)
    (hmem : ∀ n ≤ s.shared.writers,
      memAt (fun k => k.load m₀) g'.log n = memAt (fun k => k.load m₀) s.shared.log n)
    (hstage : StageInv C (settled m₀ g') g'.globals (stage x'.tx)) (hhist : Hist m₀ g')
    (htx : TxInv C m₀ g' x') : Good C m₀ s t g' x' where
  holder := by
    rw [hheld, hholder, (h.holder t).1 ht]
    simp
  others u _ := by rw [hholder]
  free := by
    rw [hlock, hholder]
    exact h.free
  stage := by
    rw [work_put_self (hholder.trans ((h.holder t).1 ht))]
    exact hstage
  hist := hhist
  tx := htx
  stable u hu hx := hx.later (not_held h hu ht) hle hmem

end Good

end Rust.LeftRight
