import ClangTM.Rust.LeftRight.IsolationSteps
import ClangTM.Serial.Serializable

/-!
# When the left-right backend is serializable

In the isolated runs the committed transactions are a serial run, in which no increment is
lost, and every transaction, whatever becomes of it, reads from one committed state. Without
the condition two transactions can read a cell and increment it one after the other; the
second one takes the lock, but it does not read the cell again.
-/

namespace Rust.LeftRight

open Serial Transition

section Call

variable {T : Type} [DecidableEq T] {C : Access → Prop} {m₀ : Addr → BitVec 8}
  {s : Threads (Book T) Session T} {t : T} (h : SessionInv C m₀ s)
include h

section

variable (hpc : (s.tx t).tx.pc = .idle)
include hpc

theorem begin_good (hin : (s.tx t).inTx = false) :
    Good C m₀ s t (s.shared.move t s.shared.globals)
      { tx := { (s.tx t).tx with writeSet := [], lockHeld := false }, inTx := true } := by
  obtain ⟨hws, hheld⟩ := (h.tx t).outside hin
  refine good_move h rfl rfl rfl (hheld hpc).symm (fun hlock => ?_) ?_
  · rw [hheld hpc] at hlock
    cases hlock
  · exact .start hpc rfl rfl rfl

theorem readCall_good {a : Addr} {w : Width} (hin : (s.tx t).inTx = true) (hk : C ⟨a, w⟩) :
    Good C m₀ s t (s.shared.move t s.shared.globals)
      ((s.tx t).after s.shared.globals (.read a w) ((s.tx t).tx.readWordBytes a w)) := by
  have hcomp : completed s.shared.globals (s.tx t).tx (.read a w) =
      (lastVal (s.tx t).tx.writeSet.reverse a).map fun v => .read ⟨a, w⟩ (w.low v) := by
    unfold completed
    rw [hpc]
  unfold Session.after Tx.readWordBytes
  rw [hcomp]
  dsimp only
  cases hfind : (s.tx t).tx.writeSet.reverse.find? fun e => e.addr = a with
  | some e =>
      have hv : lastVal (s.tx t).tx.writeSet.reverse a = some e.val := by
        unfold lastVal
        rw [hfind]
        rfl
      rw [hv]
      refine good_move h rfl rfl rfl rfl (fun _ => ?_) ?_
      · unfold stage
        rfl
      · exact (h.tx t).readOwn (k := ⟨a, w⟩) hin hk hpc hv rfl rfl hpc
  | none =>
      have hv : lastVal (s.tx t).tx.writeSet.reverse a = none := by
        unfold lastVal
        rw [hfind]
        rfl
      rw [hv]
      refine good_move h rfl rfl rfl rfl (fun _ => ?_) ?_
      · unfold stage
        rw [hpc]
      · exact (h.tx t).move rfl rfl rfl rfl (by rw [hpc]; rfl) (.inr hin) ⟨hin, hk, hv⟩

theorem writeCall_good {a : Addr} {v : Word} {w : Width} (hin : (s.tx t).inTx = true)
    (hk : C ⟨a, w⟩) :
    Good C m₀ s t (s.shared.move t s.shared.globals)
      ((s.tx t).after s.shared.globals (.write a v w) ((s.tx t).tx.writeWord a v w)) := by
  have hcomp : completed s.shared.globals (s.tx t).tx (.write a v w) = none := by
    unfold completed
    rw [hpc]
  unfold Session.after Tx.writeWord
  rw [hcomp]
  dsimp only
  cases hheld : (s.tx t).tx.lockHeld with
  | true =>
      refine good_move h rfl rfl rfl hheld.symm (fun _ => ?_) ?_
      · unfold stage
        rw [hpc]
        rfl
      · exact (h.tx t).move rfl rfl rfl hheld.symm (by rw [hpc]; rfl) (.inr hin) ⟨hin, hk, rfl⟩
  | false =>
      refine good_move h rfl rfl rfl hheld.symm (fun _ => ?_) ?_
      · unfold stage
        rw [hpc]
        rfl
      · exact (h.tx t).move rfl rfl rfl hheld.symm (by rw [hpc]; rfl) (.inr hin) ⟨hin, hk, rfl⟩

theorem abortCall_good :
    Good C m₀ s t (s.shared.move t s.shared.globals)
      { s.tx t with tx := (s.tx t).tx.tmAbort, inTx := false } := by
  have hst : stage (s.tx t).tx = .writing (s.tx t).tx.writeSet.reverse := by
    unfold stage
    rw [hpc]
  unfold Tx.tmAbort
  split
  · next hws =>
      refine good_move h rfl rfl rfl rfl (fun _ => ?_) ?_
      · rw [hst, hws]
        rfl
      · exact .outsideOf ((h.tx t).recorded.finish hws rfl) rfl hws
            (fun hidle => by cases hidle) rfl
  · next hws =>
      have hheld : (s.tx t).tx.lockHeld = true := by
        by_contra hfree
        exact hws ((h.tx t).unlocked (Bool.eq_false_iff.2 hfree))
      refine good_move h rfl rfl rfl rfl (fun _ => ?_) ?_
      · rw [hst]
        rfl
      · exact .outsideOf ((h.tx t).recorded.finish rfl rfl) rfl rfl (fun hidle => by cases hidle)
          ⟨rfl, hheld⟩

theorem commitReadOnly_good (hin : (s.tx t).inTx = true)
    (hws : (s.tx t).tx.writeSet = []) (hactive : s.shared.globals.active = false)
    (hb : (∀ u, u ≠ t → publishing (s.tx u).tx = false) ∧
      ∀ p ∈ external (s.tx t).ops, current s.shared.globals p.1 = p.2) :
    Good C m₀ s t { s.shared with ro := (s.shared.writers, (s.tx t).ops) :: s.shared.ro }
      { s.tx t with tx := { (s.tx t).tx with pc := .release }, inTx := false } := by
  have hquiet : ∀ u, publishing (s.tx u).tx = false := by
    intro u
    by_cases hu : u = t
    · subst hu
      unfold publishing stage
      rw [hpc]
    · exact hb.1 u hu
  obtain ⟨rws, hwriting⟩ := writing_of_quiet h hquiet
  have hrec := (h.tx t).recorded
  refine good_quiet h rfl rfl rfl rfl rfl rfl rfl (fun _ => ?_)
      ⟨h.hist.upTo, h.hist.legal, fun r hr => ?_⟩ ?_
  · unfold stage
    rw [hpc, hws]
    rfl
  · rcases List.mem_cons.1 hr with rfl | hr
    · refine ⟨le_rfl, (legal_iff _ _).2 ⟨hrec.self, fun p hp => ?_⟩, fun k => ?_⟩
      · refine Eq.trans ?_ (hb.2 p hp)
        exact (hwriting.current_eq hactive (hrec.reads p (List.mem_append_left _ hp))).symm
      · cases hlast : lastWrite (s.tx t).ops k with
        | none => rfl
        | some v =>
            rw [hrec.writes hin k (hrec.only k v hlast), hws] at hlast
            cases hlast
    · exact h.hist.ro r hr
  · exact .outsideOf (hrec.finish hws rfl) rfl hws (fun hidle => by cases hidle) rfl

theorem commitWriter_good (hin : (s.tx t).inTx = true) (hws : (s.tx t).tx.writeSet ≠ []) :
    Good C m₀ s t
      { s.shared with
        writers := s.shared.writers + 1
        log := enter s.shared.log (s.shared.writers + 1) (s.tx t).ops }
      { s.tx t with
        tx := { (s.tx t).tx with pc := .commitActive (s.tx t).tx.writeSet, writeSet := [] }
        inTx := false } := by
  have hheld : (s.tx t).tx.lockHeld = true := by
    by_contra hfree
    exact hws ((h.tx t).unlocked (Bool.eq_false_iff.2 hfree))
  have hrec := (h.tx t).recorded
  have hst : stage (s.tx t).tx = .writing (s.tx t).tx.writeSet.reverse := by
    unfold stage
    rw [hpc]
  have hwriting : Writing C _ _ (s.tx t).tx.writeSet.reverse := stageInv h hheld hst
  have hold : ∀ n ≤ s.shared.writers,
      memAt (fun k => k.load m₀) (enter s.shared.log (s.shared.writers + 1) (s.tx t).ops) n =
        memAt (fun k => k.load m₀) s.shared.log n :=
    fun n hn => memAt_enter_of_lt _ (by omega)
  refine good_holder h hheld hheld rfl rfl (Nat.le_succ _) hold ?_
    ⟨fun n hn => ?_, fun n w hn hw => ?_, fun r hr => ?_⟩ ?_
  · refine hwriting.publish hrec.cells fun k hk => ?_
    show memAt _ (enter s.shared.log (s.shared.writers + 1) (s.tx t).ops)
        (s.shared.writers + 1) k = _
    rw [memAt_succ_of_some (enter_self _ _ _), final_eq_getD, hold _ le_rfl, hrec.writes hin k hk]
    rfl
  · have hn : s.shared.writers + 1 < n := hn
    show enter s.shared.log (s.shared.writers + 1) (s.tx t).ops n = none
    rw [enter_of_ne _ hn.ne', h.hist.upTo n (by omega)]
  · have hw : enter s.shared.log (s.shared.writers + 1) (s.tx t).ops n = some w := hw
    show Legal (memAt _ (enter s.shared.log (s.shared.writers + 1) (s.tx t).ops) (n - 1)) w
    by_cases hnew : n = s.shared.writers + 1
    · subst hnew
      rw [enter_self] at hw
      obtain rfl := Option.some.inj hw
      rw [hold _ (by omega)]
      refine (legal_iff _ _).2 ⟨hrec.self, fun p hp => ?_⟩
      exact (h.tx t).current hin hheld p (List.mem_append_left _ hp)
    · rw [enter_of_ne _ hnew] at hw
      have hle : n ≤ s.shared.writers := by
        by_contra hlt
        rw [h.hist.upTo n (by omega)] at hw
        cases hw
      rw [hold _ (by omega)]
      exact h.hist.legal n w hn hw
  · obtain ⟨hle, hlegal, hro⟩ := h.hist.ro r hr
    refine ⟨hle.trans (Nat.le_succ _), ?_, hro⟩
    show Legal (memAt _ (enter s.shared.log (s.shared.writers + 1) (s.tx t).ops) r.1) r.2
    rw [hold _ hle]
    exact hlegal
  · exact .outsideOf (hrec.finish rfl rfl) rfl rfl (fun hidle => by cases hidle) ⟨rfl, hheld⟩

end

theorem call_good (hbase : Inv (erase s)) {c : Call} {s' : Threads (Book T) Session T}
    (hb : Isolated C s (t, c) s') (hpc : (s.tx t).tx.pc = .idle)
        (hallows : (s.tx t).allows c = true)
    {tx' : Tx} (hcall : (s.tx t).tx.call c = some tx') :
    Good C m₀ s t (s.shared.after t (s.tx t) c s.shared.globals)
      ((s.tx t).after s.shared.globals c tx') := by
  cases c with
  | begin =>
      obtain rfl := Option.some.inj hcall
      exact begin_good h hpc (by simpa [Session.allows] using hallows)
  | read a w =>
      obtain rfl := Option.some.inj hcall
      exact readCall_good h hpc hallows (hb.1 _ List.mem_cons_self)
  | write a v w =>
      obtain rfl := Option.some.inj hcall
      exact writeCall_good h hpc hallows (hb.1 _ List.mem_cons_self)
  | abort =>
      obtain rfl := Option.some.inj hcall
      exact abortCall_good h hpc
  | commit =>
      obtain rfl := Option.some.inj hcall
      show Good C m₀ s t ((s.shared.move t s.shared.globals).commit (s.tx t))
        { s.tx t with tx := (s.tx t).tx.tmCommit, inTx := false }
      rw [move_same _ _ rfl]
      unfold Book.commit Tx.tmCommit
      split
      · next hws =>
          refine commitReadOnly_good h hpc hallows hws hbase.active (hb.2 ?_)
          unfold relies
          rw [hpc]
          simp [hws]
      · next hws => exact commitWriter_good h hpc hallows hws
  | tau => cases hcall

end Call

section Run

variable {T : Type} {C : Access → Prop} {m₀ : Addr → BitVec 8} {s : Threads (Book T) Session T}

theorem sessionInv_init (m₀ : Addr → BitVec 8) : SessionInv C m₀ (sessionInit T m₀) where
  holder t := by simp [sessionInit]
  free := by simp [sessionInit]
  stage := by
    refine ⟨fun k v _ hv => ?_, fun k _ => rfl, rfl, trivial⟩
    cases hv
  hist :=
    { upTo := fun _ _ => rfl
      legal := fun n w _ hw => by cases hw
      ro := fun r hr => by cases hr }
  tx t := by
    refine .outsideOf ⟨fun e he => ?_, fun hin => ?_, fun k v hv => ?_, trivial,
      fun p hp => ?_⟩ rfl rfl (fun _ => rfl) trivial
    · cases he
    · cases hin
    · cases hv
    · cases hp

variable [DecidableEq T]

theorem sessionInv_run (hC : Cells C) (hr : Run sessionStep (Isolated C) (sessionInit T m₀) s) :
    SessionInv C m₀ s := by
  refine hr.induction_on (sessionInv_init m₀) fun s₁ l s₂ hr₁ h hs hb => ?_
  have hbase := Inv.run (run_erase hr₁)
  obtain ⟨hallows, σ, tx, hnext, rfl⟩ := sessionStep_cases hs
  obtain ⟨t, c⟩ := l
  by_cases hpc : (s₁.tx t).tx.pc = .idle
  · have hcall : ((s₁.tx t).tx.call c).map (fun x' => (s₁.shared.globals, x')) = some (σ, tx) := by
      rw [← hnext]
      unfold next
      rw [hpc]
    obtain ⟨tx₁, htx₁, rfl, rfl⟩ := map_pair_eq hcall
    exact (call_good h hbase hb hpc hallows htx₁).inv h
  · rcases next_cases hnext with ⟨hidle, -⟩ | ⟨rfl, rfl⟩
    · exact absurd hidle hpc
    · obtain rfl : c = .tau := by
        cases c with
        | tau => rfl
        | _ =>
            unfold next at hnext
            cases hp : (s₁.tx t).tx.pc <;> rw [hp] at hnext <;>
              first | cases hnext | exact absurd hp hpc
      exact (access_good h hC hbase hb hpc).inv h

theorem iterate_add_one (v : Word) (n : ℕ) : (fun v : Word => v + 1)^[n] v =
    v + BitVec.ofNat 64 n := by
  induction n generalizing v with
  | zero => simp
  | succ n ih =>
      rw [Function.iterate_succ_apply, ih, BitVec.add_assoc, Nat.add_comm n, BitVec.ofNat_add]
      rfl

/-- In an isolated run the committed transactions are a serial run, which leads to the cells
while nobody publishes, and which counts: a cell that is only written by transactions which
increment it has been increased by their number. Every transaction that is under way has read
from one committed state. -/
theorem serial_of_isolated (hC : Cells C) (m₀ : Addr → BitVec 8)
    (hr : Run sessionStep (Isolated C) (sessionInit T m₀) s) :
    (∃ m, SerialRun (fun k => k.load m₀) (schedule s.shared.log s.shared.ro s.shared.writers) m ∧
      ((∀ t, publishing (s.tx t).tx = false) → ∀ k, C k → current s.shared.globals k = m k) ∧
      ∀ k, (∀ w ∈ schedule s.shared.log s.shared.ro s.shared.writers,
          lastWrite w k = none ∨ ∃ v, w = [.write k (v + 1), .read k v]) →
        m k = k.load m₀ + BitVec.ofNat 64
          ((schedule s.shared.log s.shared.ro s.shared.writers).countP
            fun w => (lastWrite w k).isSome)) ∧
    ∀ t, (s.tx t).inTx = true → ∃ n ≤ s.shared.writers, ∀ p ∈ external (s.tx t).ops,
      memAt (fun k => k.load m₀) s.shared.log n p.1 = p.2 := by
  have h := sessionInv_run hC hr
  have hserial : SerialRun (fun k => k.load m₀)
      (schedule s.shared.log s.shared.ro s.shared.writers) (settled m₀ s.shared) :=
    schedule_serialRun _ (fun n w hn _ hw => h.hist.legal n w hn hw) fun r hr => (h.hist.ro r hr).2
  refine ⟨⟨settled m₀ s.shared, hserial, fun hquiet k hk => ?_, fun k hk => ?_⟩, fun t hin => ?_⟩
  · obtain ⟨rws, hwriting⟩ := writing_of_quiet h hquiet
    exact hwriting.current_eq (Inv.run (run_erase hr)).active hk
  · rw [hserial.eq_iterate (f := fun v => v + 1) hk, iterate_add_one]
  · obtain ⟨n, hn, hsnap⟩ := (h.tx t).snapshot hin
    exact ⟨n, hn, fun p hp => hsnap p (List.mem_append_left _ hp)⟩

end Run

/-- The thread begins a transaction and reads the cell 8. -/
def beginRead (t : Fin 2) : List (Fin 2 × Call) :=
  (t, .begin) :: (t, .read 8 .w64) :: List.replicate 6 (t, .tau)

/-- It begins a transaction and reads the cell 8 once that has been written. -/
def beginReadMap (t : Fin 2) : List (Fin 2 × Call) :=
  (t, .begin) :: (t, .read 8 .w64) :: List.replicate 5 (t, .tau)

/-- It writes the cell 8 for the first time, and commits. -/
def writeCommit (t : Fin 2) (v : Word) : List (Fin 2 × Call) :=
  (t, .write 8 v .w64) :: List.replicate 4 (t, .tau) ++ (t, .commit) :: List.replicate 9 (t, .tau)

/-- Two transactions increment the cell 8, one after the other. -/
theorem serial_of_isolated_two : ∃ s : Threads (Book (Fin 2)) Session (Fin 2),
    Run sessionStep (Isolated fun k => k = ⟨8, .w64⟩) (sessionInit (Fin 2) fun _ => 0) s ∧
      current s.shared.globals ⟨8, .w64⟩ = 2 ∧
      ∃ m, SerialRun (fun k => k.load fun _ => 0)
        (schedule s.shared.log s.shared.ro s.shared.writers) m := by
  obtain ⟨s, hr, hcur⟩ :
      ∃ s, Run sessionStep (Isolated fun k => k = ⟨8, .w64⟩) (sessionInit (Fin 2) fun _ => 0) s ∧
        current s.shared.globals ⟨8, .w64⟩ = 2 :=
    exists_run_of_exec (.flatten [beginRead 0, writeCommit 0 1, beginReadMap 1, writeCommit 1 2])
      (by decide +kernel)
  obtain ⟨⟨m, hserial, -⟩, -⟩ :=
    serial_of_isolated (fun k k' hk hk' hne => absurd (hk.trans hk'.symm) hne) _ hr
  exact ⟨s, hr, hcur, m, hserial⟩

/-- Both threads read 0 from the cell 8; then each writes 1 and commits. -/
theorem lost_update : ∃ s : Threads (Book (Fin 2)) Session (Fin 2),
    Run sessionStep anyStep (sessionInit (Fin 2) fun _ => 0) s ∧
      (∀ t, publishing (s.tx t).tx = false) ∧ current s.shared.globals ⟨8, .w64⟩ = 1 ∧
      schedule s.shared.log s.shared.ro s.shared.writers =
        [[.write ⟨8, .w64⟩ 1, .read ⟨8, .w64⟩ 0], [.write ⟨8, .w64⟩ 1, .read ⟨8, .w64⟩ 0]] ∧
      ¬Serializable (fun k => k.load fun _ => 0)
        (schedule s.shared.log s.shared.ro s.shared.writers) := by
  obtain ⟨s, hr, hquiet, hcur, hsched⟩ :
      ∃ s, Run sessionStep anyStep (sessionInit (Fin 2) fun _ => 0) s ∧
        (publishing (s.tx 0).tx = false ∧ publishing (s.tx 1).tx = false) ∧
        current s.shared.globals ⟨8, .w64⟩ = 1 ∧
        schedule s.shared.log s.shared.ro s.shared.writers =
          [[.write ⟨8, .w64⟩ 1, .read ⟨8, .w64⟩ 0], [.write ⟨8, .w64⟩ 1, .read ⟨8, .w64⟩ 0]] :=
    exists_run_of_exec (.flatten [beginRead 0, beginRead 1, writeCommit 0 1, writeCommit 1 1])
      (by decide +kernel)
  refine ⟨s, hr, fun t => ?_, hcur, hsched, ?_⟩
  · match t with
    | 0 => exact hquiet.1
    | 1 => exact hquiet.2
  · rw [hsched]
    exact not_serializable_of_lost (by decide)

end Rust.LeftRight
