import ClangTM.Rust.NOrec.Basic
import ClangTM.SeqLock.Protocol
import ClangTM.Serial.Buffered

/-!
# The invariant of the Rust NOrec backend

The shared state, with the cells that threads have still to write back, is a state of
the sequence-lock protocol (`view`), and every step is one of its moves or leaves it as
it is. What a thread knows is in terms of the value of `GLOBAL_LOCK` and of the memories
that the writers leave one after another: its read set is part of the memory at half its
snapshot, and a value loaded in the middle of a function is `SeqLock.Seen` at a clock
value.

The invariant holds in runs with fewer than `2 ^ 63` writers, in which the lock does not
wrap.
-/

namespace Rust.NOrec

open Serial Transition SeqLock

theorem isOdd_iff (c : Word) : isOdd c = true ↔ c.toNat % 2 = 1 := odd_iff c

theorem even_of_not_isOdd {c : Word} (h : ¬isOdd c = true) : c.toNat % 2 = 0 := by
  rw [isOdd_iff] at h
  omega

namespace Pc

def pending : Pc → Option (List (CellAddr × Word))
  | .writeBack _ rest => some rest
  | _ => none

def running : Pc → Bool
  | .body | .readClock _ | .readValue .. | .readClockAfter .. => true
  | .validateClock (.readWord _) | .validateEntries (.readWord _) .. => true
  | _ => false

def inside : Pc → Bool
  | .out | .beginClock => false
  | _ => true

end Pc

def view {T : Type} (s : Threads Shared Tx T) : SeqLock.State CellAddr Word T where
  clock := s.shared.globalLock.toNat
  mem := s.shared.mem
  writers := s.shared.writers
  log := s.shared.log
  ro := s.shared.ro
  writing t := (s.tx t).pc.pending

structure Recorded (x : Tx) : Prop where
  sets : Buffered x.ops x.writeSet (x.readSet.map fun r => (r.addr, r.observedVal))
  readOnly : x.readOnly = true → x.writeSet = []

structure Flags (x : Tx) : Prop where
  active : x.active = x.pc.running
  inside : x.pc.inside = true → x.committed = none
  unchanged : x.pc.inside = true → x.pc.pending = none → x.changed = false
  failed : x.committed = some false → x.changed = false

/-- The clock value `c` is even, has been reached, and the entries of the list are part of
the memory at `c`. -/
structure TakenAt (L : ℕ) (M : ℕ → CellAddr → Word) (c : Word) (rs : List ReadEntry) :
    Prop where
  even : c.toNat % 2 = 0
  le : c.toNat ≤ L
  reads : ∀ r ∈ rs, M (c.toNat / 2) r.addr = r.observedVal

def Caller.Fresh (x : Tx) : Caller → Prop
  | .readWord a => x.writeSet.lookup a = none
  | .commit => True

/-- What a thread knows in the middle of a function: `L` is the value of the lock, `M`
gives the memory at every clock value. -/
def PcInv (L : ℕ) (M : ℕ → CellAddr → Word) (x : Tx) : Prop :=
  match x.pc with
  | .readClock a => x.writeSet.lookup a = none
  | .readValue a clockBefore =>
      x.writeSet.lookup a = none ∧ clockBefore.toNat % 2 = 0 ∧ clockBefore.toNat ≤ L
  | .readClockAfter a clockBefore value =>
      x.writeSet.lookup a = none ∧ Seen L M clockBefore.toNat a value
  | .validateClock k => k.Fresh x
  | .validateEntries k time rest =>
      k.Fresh x ∧ time.toNat % 2 = 0 ∧ time.toNat ≤ L ∧
        ∀ r ∈ x.readSet, r ∈ rest ∨ Seen L M time.toNat r.addr r.observedVal
  | .commitCas snapshot => TakenAt L M snapshot x.readSet
  | _ => True

structure TxInv (L : ℕ) (M : ℕ → CellAddr → Word) (x : Tx) : Prop where
  flags : Flags x
  recorded : Recorded x
  taken : x.active = true → TakenAt L M x.snapshot x.readSet
  here : PcInv L M x

section Later

variable {L L' : ℕ} {M M' : ℕ → CellAddr → Word} {x : Tx}

theorem TakenAt.later {c : Word} {rs : List ReadEntry} (h : TakenAt L M c rs) (hL : L ≤ L')
    (hM : ∀ n, 2 * n ≤ L → M' n = M n) : TakenAt L' M' c rs where
  even := h.even
  le := h.le.trans hL
  reads r hr := by
    have := h.le
    rw [hM _ (by omega), h.reads r hr]

/-- What a thread knows is not affected by what the others do: the lock moves on, and
the memories at the clock values it has passed are settled. -/
theorem TxInv.later (h : TxInv L M x) (hL : L ≤ L') (hM : ∀ n, 2 * n ≤ L → M' n = M n) :
    TxInv L' M' x where
  flags := h.flags
  recorded := h.recorded
  taken hx := (h.taken hx).later hL hM
  here := by
    have hhere := h.here
    unfold PcInv at hhere ⊢
    cases hpc : x.pc with
    | readValue a c =>
        rw [hpc] at hhere
        exact ⟨hhere.1, hhere.2.1, hhere.2.2.trans hL⟩
    | readClockAfter a c v =>
        rw [hpc] at hhere
        exact ⟨hhere.1, hhere.2.later hL hM⟩
    | validateEntries k c rest =>
        rw [hpc] at hhere
        obtain ⟨hfresh, heven, hle, hval⟩ := hhere
        exact ⟨hfresh, heven, hle.trans hL,
          fun r hr => (hval r hr).imp_right fun hseen => hseen.later hL hM⟩
    | commitCas c =>
        rw [hpc] at hhere
        exact hhere.later hL hM
    | _ =>
        rw [hpc] at hhere
        exact hhere

end Later

section Look

variable {L : ℕ} {M : ℕ → CellAddr → Word} {x x' : Tx} {clock : Word}
  {mem : CellAddr → Word} {c : Call}

theorem Recorded.pushRead (h : Recorded x) {a : CellAddr} (v : Word)
    (ha : x.writeSet.lookup a = none) : Recorded (x.pushRead a v) := by
  refine ⟨?_, h.readOnly⟩
  rw [Tx.pushRead, List.map_append]
  exact h.sets.read ha

/-- Outside a transaction. -/
theorem TxInv.idle {committed : Option Bool} {changed : Bool}
    (hfailed : committed = some false → changed = false) :
    TxInv L M { committed := committed, changed := changed } where
  flags := ⟨rfl, by simp [Pc.inside], by simp [Pc.inside], hfailed⟩
  recorded := ⟨.nil, fun _ => rfl⟩
  taken h := by simp at h
  here := trivial

section

variable (h : TxInv L M x)
include h

theorem TxInv.at {pc : Pc} (hpc : x.pc = pc) : PcInv L M { x with pc := pc } := by
  subst hpc
  exact h.here

theorem TxInv.flags_of {pc : Pc} (hpc : x.pc = pc) (hin : pc.inside = true)
    (hpending : pc.pending = none) :
    x.active = pc.running ∧ x.committed = none ∧ x.changed = false := by
  subst hpc
  exact ⟨h.flags.active, h.flags.inside hin, h.flags.unchanged hin hpending⟩

theorem TxInv.goto {pc q : Pc} (hpc : x.pc = pc) (hin : pc.inside = true)
    (hpending : pc.pending = none) (hrun : q.running = pc.running)
    (hhere : PcInv L M { x with pc := q }) : TxInv L M { x with pc := q } := by
  obtain ⟨hactive, hcommitted, hchanged⟩ := h.flags_of hpc hin hpending
  exact ⟨⟨hactive.trans hrun.symm, fun _ => hcommitted, fun _ _ => hchanged, h.flags.failed⟩,
    ⟨h.recorded.sets, h.recorded.readOnly⟩, h.taken, hhere⟩

/-- What a thread knows while it holds the lock. -/
theorem TxInv.holding {L' : ℕ} {M' : ℕ → CellAddr → Word} {pc : Pc} {snapshot : Word}
    {rest : List (CellAddr × Word)} (hpc : x.pc = pc) (hin : pc.inside = true)
    (hrun : pc.running = false) :
    TxInv L' M' { x with pc := .writeBack snapshot rest, changed := true } := by
  subst hpc
  have hactive : x.active = false := h.flags.active.trans hrun
  have hcommitted := h.flags.inside hin
  exact ⟨⟨hactive, fun _ => hcommitted, by simp [Pc.pending], by simp [hcommitted]⟩,
    ⟨h.recorded.sets, h.recorded.readOnly⟩, by simp [hactive], trivial⟩

theorem TxInv.tmAbort : TxInv L M x.tmAbort := .idle h.flags.failed

theorem TxInv.tmBegin (hL : clock.toNat = L) : TxInv L M (x.tmBegin clock) := by
  unfold Tx.tmBegin
  split
  · exact h
  · next hodd =>
      exact ⟨⟨rfl, fun _ => rfl, fun _ _ => rfl, by simp⟩, ⟨.nil, fun _ => rfl⟩,
        fun _ => ⟨even_of_not_isOdd hodd, hL.le, by simp⟩, trivial⟩

theorem TxInv.readWord (hpc : x.pc = .body) (a : CellAddr) : TxInv L M (x.readWord a) := by
  unfold Tx.readWord
  cases hw : x.writeSet.lookup a with
  | none => exact h.goto hpc rfl rfl rfl hw
  | some v =>
      have hflags := h.flags
      exact ⟨⟨hflags.active, hflags.inside, hflags.unchanged, hflags.failed⟩,
        ⟨h.recorded.sets.readOwn hw, h.recorded.readOnly⟩, h.taken, by simp [PcInv, hpc]⟩

theorem TxInv.writeWord (hpc : x.pc = .body) (a : CellAddr) (v : Word) :
    TxInv L M (x.writeWord a v) := by
  have hflags := h.flags
  exact ⟨⟨hflags.active, hflags.inside, hflags.unchanged, hflags.failed⟩,
    ⟨h.recorded.sets.write a v, by simp [Tx.writeWord]⟩, h.taken,
    by simp [PcInv, Tx.writeWord, hpc]⟩

theorem TxInv.readClock {a : CellAddr} (hpc : x.pc = .readClock a) (hL : clock.toNat = L) :
    TxInv L M { x with pc := if isOdd clock then .readClock a else .readValue a clock } := by
  have hfresh := h.at hpc
  split
  · exact h.goto hpc rfl rfl rfl hfresh
  · next hodd => exact h.goto hpc rfl rfl rfl ⟨hfresh, even_of_not_isOdd hodd, hL.le⟩

/-- The cell is loaded from the memory at `clock_before`, if the lock still has that
value. -/
theorem TxInv.readValue {a : CellAddr} {clockBefore : Word} (hpc : x.pc = .readValue a clockBefore)
    (hmem : L % 2 = 0 → mem = M (L / 2)) :
    TxInv L M { x with pc := .readClockAfter a clockBefore (mem a) } := by
  obtain ⟨hfresh, heven, hle⟩ := h.at hpc
  refine h.goto hpc rfl rfl rfl ⟨hfresh, heven, hle, fun he => ?_⟩
  rw [hmem (by omega), he]

/-- A value enters the read set when the lock still has the value `snapshot`. -/
theorem TxInv.pushRead {a : CellAddr} {clockBefore value : Word}
    (hpc : x.pc = .readClockAfter a clockBefore value) (hfresh : x.writeSet.lookup a = none)
    (hval : M (x.snapshot.toNat / 2) a = value) : TxInv L M (x.pushRead a value) := by
  obtain ⟨hactive, hcommitted, hchanged⟩ := h.flags_of hpc rfl rfl
  have htaken := h.taken hactive
  refine ⟨⟨hactive, fun _ => hcommitted, fun _ _ => hchanged, h.flags.failed⟩,
    h.recorded.pushRead value hfresh, fun _ => ⟨htaken.even, htaken.le, ?_⟩, trivial⟩
  intro r hr
  rcases List.mem_append.1 hr with hr | hr
  · exact htaken.reads r hr
  · rw [List.mem_singleton.1 hr]
    exact hval

theorem TxInv.readCheck {a : CellAddr} {clockBefore value : Word}
    (hpc : x.pc = .readClockAfter a clockBefore value) (hL : clock.toNat = L) :
    TxInv L M (x.readCheck a clockBefore value clock) := by
  obtain ⟨hfresh, hseen⟩ := h.at hpc
  unfold Tx.readCheck
  split
  · exact h.goto hpc rfl rfl rfl hfresh
  · next heq =>
      have heq : clock = clockBefore := not_not.1 heq
      split
      · next hsnap =>
          refine h.pushRead hpc hfresh ?_
          rw [← hsnap]
          exact hseen.value (heq ▸ hL.symm)
      · exact h.goto hpc rfl rfl rfl hfresh

end

variable {k : Caller} {time : Word}

theorem running_validate (k : Caller) (time : Word) (rest : List ReadEntry) :
    (Pc.validateEntries k time rest).running = (Pc.validateClock k).running := by
  cases k <;> rfl

theorem TxInv.validateTime (h : TxInv L M x) (hpc : x.pc = .validateClock k)
    (hL : clock.toNat = L) : TxInv L M (x.validateTime k clock) := by
  have hfresh : PcInv L M { x with pc := .validateClock k } := h.at hpc
  unfold Tx.validateTime
  split
  · exact h.goto hpc rfl rfl rfl hfresh
  · next hodd =>
      exact h.goto hpc rfl rfl (running_validate k clock x.readSet)
        ⟨hfresh, even_of_not_isOdd hodd, hL.le, fun r hr => .inl hr⟩

theorem TxInv.validateEntry (h : TxInv L M x) {r : ReadEntry} {rest : List ReadEntry}
    (hpc : x.pc = .validateEntries k time (r :: rest)) (hmem : L % 2 = 0 → mem = M (L / 2))
    (heq : mem r.addr = r.observedVal) :
    TxInv L M { x with pc := .validateEntries k time rest } := by
  obtain ⟨hfresh, heven, hle, hval⟩ := h.at hpc
  refine h.goto hpc rfl rfl (by rw [running_validate, running_validate])
    ⟨hfresh, heven, hle, fun r' hr' => ?_⟩
  rcases hval r' hr' with hmem' | hold
  · rcases List.mem_cons.1 hmem' with rfl | hrest
    · refine .inr ⟨heven, hle, fun he => ?_⟩
      rw [← heq, hmem (by omega), he]
    · exact .inl hrest
  · exact .inr hold

theorem TxInv.validateSome (h : TxInv L M x) (hpc : x.pc = .validateEntries k time [])
    (hL : time.toNat = L) : TxInv L M (x.validateSome k time) := by
  obtain ⟨hfresh, heven, hle, hval⟩ := h.at hpc
  have htaken : TakenAt L M time x.readSet :=
    ⟨heven, hle, fun r hr => ((hval r hr).resolve_left (by simp)).value hL.symm⟩
  cases k with
  | readWord a =>
      obtain ⟨hactive, hcommitted, hchanged⟩ := h.flags_of hpc rfl rfl
      exact ⟨⟨hactive, fun _ => hcommitted, fun _ _ => hchanged, h.flags.failed⟩,
        ⟨h.recorded.sets, h.recorded.readOnly⟩, fun _ => htaken, hfresh⟩
  | commit => exact h.goto hpc rfl rfl rfl htaken

theorem TxInv.validateNone (h : TxInv L M x) {rest : List ReadEntry}
    (hpc : x.pc = .validateEntries k time rest) : TxInv L M (x.validateNone k) := by
  cases k with
  | readWord a => exact h.tmAbort
  | commit => exact .idle fun _ => (h.flags_of hpc rfl rfl).2.2

theorem TxInv.look (h : TxInv L M x) (hL : clock.toNat = L)
    (hmem : L % 2 = 0 → mem = M (L / 2)) (hs : x.look clock mem c = some x') :
    TxInv L M x' := by
  unfold Tx.look at hs
  split at hs <;> try cases hs
  · next hpc =>
      have hflags := h.flags
      exact ⟨⟨by simp [hflags.active, hpc, Pc.running], by simp [Pc.inside],
        by simp [Pc.inside], hflags.failed⟩, ⟨h.recorded.sets, h.recorded.readOnly⟩, h.taken,
        trivial⟩
  · exact h.tmBegin hL
  · next a hpc => exact h.readWord hpc a
  · next a v hpc => exact h.writeWord hpc a v
  · exact h.tmAbort
  · next a hpc => exact h.readClock hpc hL
  · next a clockBefore hpc => exact h.readValue hpc hmem
  · next a clockBefore value hpc => exact h.readCheck hpc hL
  · next k hpc => exact h.validateTime hpc hL
  · next k time r rest hpc =>
      split
      · next heq => exact h.validateEntry hpc hmem heq
      · exact h.validateNone hpc
  · next k time hpc =>
      have hhere := h.at hpc
      split
      · next heq => exact h.validateSome hpc (heq ▸ hL)
      · exact h.goto hpc rfl rfl (running_validate k time []).symm hhere.1
  · next snapshot hpc =>
      exact h.goto (q := .validateClock .commit) hpc rfl rfl rfl trivial

@[simp] theorem Tx.validateSome_pending (x : Tx) (k : Caller) (time : Word) :
    (x.validateSome k time).pc.pending = none := by
  cases k <;> rfl

@[simp] theorem Tx.validateNone_pending (x : Tx) (k : Caller) :
    (x.validateNone k).pc.pending = none := by
  cases k <;> rfl

/-- These moves are not made by a thread that holds the lock, and do not take it. -/
theorem Tx.look_pending (hs : x.look clock mem c = some x') :
    x.pc.pending = none ∧ x'.pc.pending = none := by
  unfold Tx.look at hs
  split at hs <;>
    grind [Pc.pending, Tx.tmBegin, Tx.readWord, Tx.writeWord, Tx.tmAbort, Tx.flush,
      Tx.readCheck, Tx.pushRead, Tx.validateTime, Tx.validateSome_pending,
      Tx.validateNone_pending]

end Look

inductive Move (σ : Shared) (x : Tx) (c : Call) : Shared → Tx → Prop
  | look (x' : Tx) (hs : x.look σ.globalLock σ.mem c = some x') : Move σ x c σ x'
  | commitReadOnly (hpc : x.pc = .body) (hwrite : x.readOnly = true ∨ x.writeSet = []) :
      Move σ x c { σ with ro := (x.snapshot.toNat / 2, x.ops) :: σ.ro }
        { x.flush with committed := some true }
  | commitStart (hpc : x.pc = .body) :
      Move σ x c σ { x with pc := .commitCas x.snapshot, active := false }
  | acquire (snapshot : Word) (hpc : x.pc = .commitCas snapshot)
      (hlock : σ.globalLock = snapshot) :
      Move σ x c
        { σ with
          globalLock := snapshot + 1
          writers := σ.writers + 1
          log := enter σ.log (σ.writers + 1) x.ops }
        { x with pc := .writeBack snapshot x.writeSet, changed := true }
  | busy (snapshot : Word) (hpc : x.pc = .commitCas snapshot) :
      Move σ x c σ { x with pc := .validateClock .commit }
  | writeBack (snapshot : Word) (w : CellAddr × Word) (rest : List (CellAddr × Word))
      (hpc : x.pc = .writeBack snapshot (w :: rest)) :
      Move σ x c { σ with mem := Function.update σ.mem w.1 w.2 }
        { x with pc := .writeBack snapshot rest, changed := true }
  | release (snapshot : Word) (hpc : x.pc = .writeBack snapshot []) :
      Move σ x c { σ with globalLock := snapshot + 2 }
        { x.flush with committed := some true, changed := true }

theorem next_move {σ σ' : Shared} {x x' : Tx} {c : Call} (hs : next σ x c = some (σ', x')) :
    Move σ x c σ' x' := by
  unfold next at hs
  split at hs <;> try cases hs
  · next hpc =>
      rw [tmCommit] at hs
      split at hs <;> cases hs
      · next hwrite => exact .commitReadOnly hpc (by simpa using hwrite)
      · exact .commitStart hpc
  · next snapshot hpc =>
      rw [commitCas] at hs
      split at hs <;> cases hs
      · next hlock => exact .acquire snapshot hpc hlock
      · exact .busy snapshot hpc
  · next snapshot w rest hpc => exact .writeBack snapshot w rest hpc
  · next snapshot hpc => exact .release snapshot hpc
  · obtain ⟨x₁, hx₁, heq⟩ := Option.map_eq_some_iff.1 hs
    cases heq
    exact .look _ hx₁

section Step

variable {T : Type} {m₀ : CellAddr → Word} {s s' : Threads Shared Tx T} {t : T}

structure Inv (m₀ : CellAddr → Word) (s : Threads Shared Tx T) : Prop where
  lock : SeqLock.Inv m₀ (view s)
  tx : ∀ t, TxInv (view s).clock ((view s).memAt m₀) (s.tx t)
  owner : ∀ t snapshot rest, (s.tx t).pc = .writeBack snapshot rest →
    snapshot.toNat + 2 = 2 * s.shared.writers

namespace Inv

theorem init (m₀ : CellAddr → Word) : Inv m₀ (NOrec.init T m₀) where
  lock := .init rfl rfl rfl rfl fun _ => rfl
  tx _ := .idle (by simp)
  owner t snapshot rest hpc := by simp [NOrec.init] at hpc

theorem legal_of_taken (h : Inv m₀ s) {L : ℕ} {M : ℕ → CellAddr → Word} {c : Word}
    (htaken : TakenAt L M c (s.tx t).readSet) : Legal (M (c.toNat / 2)) (s.tx t).ops :=
  (h.tx t).recorded.sets.legal (List.forall_mem_map.2 htaken.reads)

variable [DecidableEq T] {σ : Shared} {x : Tx}

theorem view_put {w : Option (List (CellAddr × Word))} (hw : x.pc.pending = w) :
    view (s.put t σ x) =
      { view (s.put t σ x) with writing := Function.update (view s).writing t w } := by
  subst hw
  refine congrArg (fun w => { view (s.put t σ x) with writing := w }) (funext fun u => ?_)
  show ((s.put t σ x).tx u).pc.pending = _
  by_cases hu : u = t
  · subst hu
    rw [Threads.put_tx_self, Function.update_self]
  · rw [Threads.put_tx_of_ne hu, Function.update_of_ne hu]
    rfl

section

variable (h : Inv m₀ s)
include h

/-- The invariant after a step of `t`, from the state of the lock and what `t` knows. -/
theorem put (hlock : SeqLock.Inv m₀ (view (s.put t σ x)) ∧ Later m₀ (view s) (view (s.put t σ x)))
    (hx : TxInv (view (s.put t σ x)).clock ((view (s.put t σ x)).memAt m₀) x)
    (hself : ∀ snapshot rest, x.pc = .writeBack snapshot rest → snapshot.toNat + 2 = 2 * σ.writers)
    (hother : ∀ u, (s.tx u).pc.pending ≠ none → σ.writers = s.shared.writers) :
    Inv m₀ (s.put t σ x) ∧ Later m₀ (view s) (view (s.put t σ x)) := by
  refine ⟨⟨hlock.1, ?_, ?_⟩, hlock.2⟩
  · refine Threads.forall_put (P := fun _ (x : Tx) => TxInv _ _ x) hx fun u _ => ?_
    exact (h.tx u).later hlock.2.clock hlock.2.mem
  · refine Threads.forall_put (P := fun _ (x : Tx) => ∀ snapshot rest,
      x.pc = .writeBack snapshot rest → snapshot.toNat + 2 = 2 * σ.writers) hself ?_
    intro u _ snapshot rest hpc
    rw [hother u (by simp [hpc, Pc.pending])]
    exact h.owner u snapshot rest hpc

theorem setTx (hx : TxInv (view s).clock ((view s).memAt m₀) x) (hold : (s.tx t).pc.pending = none)
    (hnew : x.pc.pending = none) :
    Inv m₀ (s.put t s.shared x) ∧ Later m₀ (view s) (view (s.put t s.shared x)) := by
  have hview : view (s.put t s.shared x) = view s := by
    rw [view_put hnew, ← hold]
    exact congrArg (fun w => { view s with writing := w })
      (Function.update_eq_self t (view s).writing)
  refine h.put ?_ ?_ (fun _ _ hpc => ?_) fun _ _ => rfl
  · rw [hview]
    exact ⟨h.lock, .of_eq rfl rfl⟩
  · rwa [hview]
  · simp [hpc, Pc.pending] at hnew

theorem commitReadOnly (hpc : (s.tx t).pc = .body)
    (hwrite : (s.tx t).readOnly = true ∨ (s.tx t).writeSet = []) :
    let s' := s.put t
      { s.shared with ro := ((s.tx t).snapshot.toNat / 2, (s.tx t).ops) :: s.shared.ro }
      { (s.tx t).flush with committed := some true }
    Inv m₀ s' ∧ Later m₀ (view s) (view s') := by
  intro s'
  have hrec := (h.tx t).recorded
  have htaken := (h.tx t).taken ((h.tx t).flags_of hpc rfl rfl).1
  have hold : (view s).writing t = none := congrArg Pc.pending hpc
  have hview : view s' =
      { view s with ro := ((s.tx t).snapshot.toNat / 2, (s.tx t).ops) :: s.shared.ro } := by
    rw [view_put (w := none) rfl, ← hold, Function.update_eq_self]
    rfl
  refine h.put ?_ (.idle (by simp)) (fun _ _ hpc' => by cases hpc') fun _ _ => rfl
  rw [hview]
  refine h.lock.step (t := t) (.commitReadOnly _ _ ?_ (h.legal_of_taken htaken) fun a => ?_)
  · exact (Nat.mul_div_le _ 2).trans htaken.le
  · rw [hrec.sets.writes, hwrite.elim hrec.readOnly id]
    rfl

theorem commitStart (hpc : (s.tx t).pc = .body) :
    let s' := s.put t s.shared
      { s.tx t with pc := .commitCas (s.tx t).snapshot, active := false }
    Inv m₀ s' ∧ Later m₀ (view s) (view s') := by
  have htx := h.tx t
  obtain ⟨hactive, hcommitted, hchanged⟩ := htx.flags_of hpc rfl rfl
  exact h.setTx ⟨⟨rfl, fun _ => hcommitted, fun _ _ => hchanged, htx.flags.failed⟩,
    ⟨htx.recorded.sets, htx.recorded.readOnly⟩, by simp, htx.taken hactive⟩
    (congrArg Pc.pending hpc) rfl

/-- The compare-and-swap succeeds: the lock is free, and the read set is part of memory. -/
theorem acquire {snapshot : Word} (hpc : (s.tx t).pc = .commitCas snapshot)
    (hlock : s.shared.globalLock = snapshot) (hbound : s.shared.writers + 1 < 2 ^ 63) :
    let s' := s.put t
      { s.shared with
        globalLock := snapshot + 1
        writers := s.shared.writers + 1
        log := enter s.shared.log (s.shared.writers + 1) (s.tx t).ops }
      { s.tx t with pc := .writeBack snapshot (s.tx t).writeSet, changed := true }
    Inv m₀ s' ∧ Later m₀ (view s) (view s') := by
  intro s'
  have hrec := (h.tx t).recorded
  have htaken : TakenAt (view s).clock ((view s).memAt m₀) snapshot (s.tx t).readSet :=
    (h.tx t).at hpc
  have hsnapshot : (view s).clock = snapshot.toNat := congrArg BitVec.toNat hlock
  have heven : (view s).clock % 2 = 0 := by rw [hsnapshot, htaken.even]
  have hfree := h.lock.free_of_even heven
  have hclock : snapshot.toNat = 2 * s.shared.writers := hsnapshot.symm.trans hfree.clock
  have hsucc : (snapshot + 1).toNat = (view s).clock + 1 := by
    rw [BitVec.toNat_add, hsnapshot]
    exact Nat.mod_eq_of_lt (by simp; omega)
  have hview : view s' = (view s).acquire t (s.tx t).ops (s.tx t).writeSet := by
    rw [view_put (w := some (s.tx t).writeSet) rfl]
    exact congrArg (fun n => { (view s).acquire t (s.tx t).ops _ with clock := n }) hsucc
  refine h.put ?_ ((h.tx t).holding hpc rfl rfl) (fun sn rest hpc' => ?_) fun u hu => ?_
  · rw [hview]
    refine h.lock.step (.acquire _ _ heven ?_ (funext fun a => ?_))
    · rw [h.lock.mem_of_even heven, hsnapshot]
      exact h.legal_of_taken htaken
    · rw [writeAll_of_nodup _ hrec.sets.nodup, hrec.sets.final_eq]
  · obtain ⟨rfl, -⟩ := Pc.writeBack.inj hpc'
    show snapshot.toNat + 2 = 2 * (s.shared.writers + 1)
    rw [hclock]
    rfl
  · exact absurd (hfree.writing u) hu

theorem writeBack {snapshot : Word} {w : CellAddr × Word} {rest : List (CellAddr × Word)}
    (hpc : (s.tx t).pc = .writeBack snapshot (w :: rest)) :
    let s' := s.put t { s.shared with mem := Function.update s.shared.mem w.1 w.2 }
      { s.tx t with pc := .writeBack snapshot rest, changed := true }
    Inv m₀ s' ∧ Later m₀ (view s) (view s') := by
  intro s'
  have hview : view s' = (view s).writeBack t w rest := view_put rfl
  refine h.put ?_ ((h.tx t).holding hpc rfl rfl) (fun sn rest' hpc' => ?_) fun _ _ => rfl
  · rw [hview]
    exact h.lock.step (.writeBack w rest (congrArg Pc.pending hpc))
  · obtain ⟨rfl, -⟩ := Pc.writeBack.inj hpc'
    exact h.owner t snapshot _ hpc

theorem release {snapshot : Word} (hpc : (s.tx t).pc = .writeBack snapshot [])
    (hbound : s.shared.writers < 2 ^ 63) :
    let s' := s.put t { s.shared with globalLock := snapshot + 2 }
      { (s.tx t).flush with committed := some true, changed := true }
    Inv m₀ s' ∧ Later m₀ (view s) (view s') := by
  intro s'
  have hwriting : (view s).writing t = some [] := congrArg Pc.pending hpc
  have hclock : (view s).clock + 1 = 2 * s.shared.writers := (h.lock.held hwriting).clock
  have howner := h.owner t snapshot [] hpc
  have hsucc : (snapshot + 2).toNat = (view s).clock + 1 := by
    have htwo : (2 : Word).toNat = 2 := rfl
    rw [BitVec.toNat_add, htwo]
    omega
  have hview : view s' = (view s).release t := by
    rw [view_put (w := none) rfl]
    exact congrArg (fun n => { (view s).release t with clock := n }) hsucc
  refine h.put ?_ (.idle (by simp)) (fun _ _ hpc' => by cases hpc') fun _ _ => rfl
  rw [hview]
  exact h.lock.step (.release hwriting)

end

end Inv

/-- The steps that the invariant is about: those that leave fewer than `2 ^ 63` writers. -/
def Bounded (_ : Threads Shared Tx T) (_ : T × Call) (s' : Threads Shared Tx T) : Prop :=
  s'.shared.writers < 2 ^ 63

instance (s : Threads Shared Tx T) (l : T × Call) (s' : Threads Shared Tx T) :
    Decidable (Bounded s l s') :=
  inferInstanceAs (Decidable (_ < _))

variable [DecidableEq T]

theorem Inv.step {l : T × Call} (h : Inv m₀ s) (hs : NOrec.step s l = some s')
    (hb : Bounded s l s') : Inv m₀ s' ∧ Later m₀ (view s) (view s') := by
  obtain ⟨σ, x, hnext, rfl⟩ := Threads.step_eq_some hs
  cases next_move hnext with
  | look x hx =>
      obtain ⟨hold, hnew⟩ := Tx.look_pending hx
      exact h.setTx ((h.tx _).look rfl h.lock.mem_of_even hx) hold hnew
  | commitReadOnly hpc hwrite => exact h.commitReadOnly hpc hwrite
  | commitStart hpc => exact h.commitStart hpc
  | acquire snapshot hpc hlock => exact h.acquire hpc hlock hb
  | busy snapshot hpc =>
      refine h.setTx ?_ (by simp [hpc, Pc.pending]) rfl
      exact (h.tx _).goto hpc rfl rfl rfl trivial
  | writeBack snapshot w rest hpc => exact h.writeBack hpc
  | release snapshot hpc => exact h.release hpc hb

theorem Inv.run (h : Inv m₀ s) (hr : Run NOrec.step Bounded s s') :
    Inv m₀ s' ∧ Later m₀ (view s) (view s') := by
  refine hr.induction_on (P := fun s' => Inv m₀ s' ∧ Later m₀ (view s) (view s'))
    ⟨h, .of_eq rfl rfl⟩ ?_
  intro s₁ l s₂ _ h₁ hs hb
  obtain ⟨hinv, hlater⟩ := h₁.1.step hs hb
  exact ⟨hinv, h₁.2.trans hlater⟩

end Step

end Rust.NOrec
