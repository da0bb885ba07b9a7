import ClangTM.TinySTM.Wbctl.Opacity

/-!
# The reset of the clock in WBCTL

When the clock reaches its bound, one thread stores 0 to all locks and 1 to the
clock. If no other transaction is active meanwhile, the reset starts a new epoch: the
transaction of the resetting thread aborts, and the protocol goes on from an empty log
over the memory that the transactions so far have left. The invariant of a run is then
the one of the current epoch, together with the serial order of the earlier ones.
-/

namespace TinySTM.Wbctl

open Serial Transition

/-- The accesses of the thread that resets the locks and the clock. -/
def Pc.resetting : Pc → Bool
  | .increment (.reset _) | .increment .storeClock | .increment .storeThr
  | .increment .reload => true
  | _ => false

/-- While a thread resets the clock, no other transaction is active, and its own has
an `end_version` above the 1 that the clock starts again with. -/
def quietReset (_ : State Tx) (_ : TxId × TxCall) (s' : State Tx) : Prop :=
  ∀ t, (s'.tx t).pc.resetting = true →
    1 < (s'.tx t).endVersion ∧ ∀ u, u ≠ t → (s'.tx u).active = false

/-- A transaction that is not active is in its initial state. -/
def Idle (x : Tx) : Prop :=
  x.active = false → (x.pc = .out ∨ x.pc = .beginClock) ∧
    x = { pc := x.pc, commitVersion := x.commitVersion }

section Idle

variable {t : TxId} {σ σ' : Shared} {x x' : Tx} {c : TxCall}

theorem Tx.look_active (hs : Tx.look t σ x c = some x') :
    x'.active = x.active ∨ x'.active = true := by
  have hspin : ∀ (y : Tx) k, (y.softSpin k).active = y.active := by
    intro y k
    unfold Tx.softSpin
    split <;> rfl
  have hloop : ∀ (y : Tx) a l n, (y.readLoop a l n).active = y.active := by
    intro y a l n
    unfold Tx.readLoop
    split
    · split <;> rfl
    · rfl
  have hextend : ∀ (y : Tx) k, (y.extendTrue k).active = y.active := by
    intro y k
    cases k with
    | readWord a l n => exact hloop y a l n
    | commitLock a rest n =>
        rw [Tx.extendTrue]
        split <;> rfl
    | _ => rfl
  have hfalse : ∀ (y : Tx) k, (y.validateFalse k).active = y.active := by
    intro y k
    cases k with
    | extend last k => cases k <;> first | exact hspin y _ | rfl
    | writeWord a w => exact hspin y _
    | commit n => rfl
  unfold Tx.look at hs
  split at hs <;>
    grind [Tx.begin, Tx.beginAt, Tx.readWordCtl, Tx.writeWordCtl, Tx.abortTx, Tx.readCheck,
      Tx.pushRead, Tx.writeCheck, Tx.writeCheckAgain, Tx.pushWrite, Tx.validateTrue,
      Tx.commitStart, Tx.abortClear]

theorem next_active (hs : next t σ x c = some (σ', x')) :
    x'.active = x.active ∨ x'.active = true ∨ ∃ v, x' = x.reset v := by
  have htoken : ∀ k, (x.tokenTrue k).active = x.active := by
    intro k
    cases k with
    | readWord a l n =>
        simp only [Tx.tokenTrue, Tx.readLoop]
        split
        · split <;> rfl
        · rfl
    | _ => rfl
  have hinc : ∀ n, (x.incremented n).active = x.active := by
    intro n
    unfold Tx.incremented Tx.checkGap
    split
    · rfl
    · split <;> rfl
  unfold next at hs
  split at hs
  case h_11 =>
    obtain ⟨y, hlook, rfl, rfl⟩ := map_pair_eq hs
    rcases Tx.look_active hlook with h | h
    · exact .inl h
    · exact .inr (.inl h)
  all_goals grind [commitPoint, commitEnd, Tx.validateTrue, Tx.abortTx]

theorem Idle.next (h : Idle x) (hs : next t σ x c = some (σ', x')) : Idle x' := by
  intro hx'
  cases hx : x.active with
  | true =>
      rcases next_active hs with heq | htrue | ⟨v, rfl⟩
      · simp [hx, hx'] at heq
      · simp [hx'] at htrue
      · exact ⟨.inl rfl, rfl⟩
  | false =>
      obtain ⟨hpc, heq⟩ := h hx
      rcases hpc with hpc | hpc
      · cases c <;> simp [Wbctl.next, Tx.look, hpc, Tx.begin, hx] at hs
        obtain ⟨-, rfl⟩ := hs
        refine ⟨.inr rfl, ?_⟩
        rw [heq]
      · cases c <;> simp [Wbctl.next, Tx.look, hpc] at hs
        obtain ⟨-, rfl⟩ := hs
        split at hx'
        · simp [Tx.beginAt] at hx'
        · next hclock =>
            rw [if_neg hclock]
            exact ⟨.inr hpc, heq⟩

end Idle

/-- What is left of the reset at an access of `increment_clock`. -/
def ResetAt (σ : Shared) : ClockPc → Prop
  | .reset i => ∀ j < i, σ.locks j = 0
  | .storeClock => ∀ j, σ.locks j = 0
  | .storeThr => (∀ j, σ.locks j = 0) ∧ σ.gClock = 1 ∧ σ.log = (fun _ => none) ∧ σ.ro = []
  | .reload =>
      (∀ j, σ.locks j = 0) ∧ σ.gClock = 1 ∧ σ.log = (fun _ => none) ∧ σ.ro = [] ∧
        σ.resetLocksThr = 0
  | _ => False

/-- The thread `t` is in the middle of a reset. -/
structure Resetting (m₀ : WordAddr → Word) (s : State Tx) (t : TxId) : Prop where
  pc : ∃ p, (s.tx t).pc = .increment p ∧ ResetAt s.shared p
  late : 1 < (s.tx t).endVersion
  update : (s.tx t).readOnly = false
  nodup : ((s.tx t).writeSet.map Prod.fst).Nodup
  heldWritten : ∀ ℓ ∈ (s.tx t).locksHeld, ∃ w ∈ (s.tx t).writeSet, lockOf w.1 = ℓ
  others : ∀ u, u ≠ t → (s.tx u).active = false
  serial : SerialRun m₀
    (s.shared.past ++ schedule s.shared.log s.shared.ro s.shared.gClock) s.shared.mem

/-- Outside a reset: the invariant holds since the memory `base` that the last reset
has found. -/
structure Regular (m₀ base : WordAddr → Word) (s : State Tx) : Prop where
  past : SerialRun m₀ s.shared.past base
  inv : Inv false base s
  thr : s.shared.resetLocksThr = 0

structure EpochInv (m₀ : WordAddr → Word) (s : State Tx) : Prop where
  idle : ∀ t, Idle (s.tx t)
  phase : (∃ base, Regular m₀ base s) ∨ ∃ t, Resetting m₀ s t

section Epoch

variable {m₀ base : WordAddr → Word} {s s' : State Tx} {t : TxId} {σ σ' : Shared} {x x' : Tx}
  {c : TxCall}

/-- Outside `increment_clock` nobody touches the history of the earlier epochs. -/
theorem next_past (hs : next t σ x c = some (σ', x'))
    (hpc : ∀ p, x.pc = .increment p → p = .add) :
    σ'.past = σ.past ∧ σ'.resetLocksThr = σ.resetLocksThr := by
  have htoken : ∀ p : TokenPc, (p.step σ t).1.past = σ.past ∧
      (p.step σ t).1.resetLocksThr = σ.resetLocksThr := by
    intro p
    cases p with
    | load => exact ⟨rfl, rfl⟩
    | cas =>
        rw [TokenPc.step]
        split <;> exact ⟨rfl, rfl⟩
  have htry : ∀ (p : TryLockPc) ℓ, (p.step σ t ℓ).1.past = σ.past ∧
      (p.step σ t ℓ).1.resetLocksThr = σ.resetLocksThr := by
    intro p ℓ
    cases p with
    | load => exact ⟨rfl, rfl⟩
    | cas current =>
        rw [TryLockPc.step]
        split <;> exact ⟨rfl, rfl⟩
  have hunlock : ∀ (p : UnlockPc) ℓ, (p.step σ t ℓ).1.past = σ.past ∧
      (p.step σ t ℓ).1.resetLocksThr = σ.resetLocksThr := by
    intro p ℓ
    cases p <;> exact ⟨rfl, rfl⟩
  unfold next at hs
  split at hs
  case h_4 p hp =>
    obtain rfl := hpc p hp
    simp only [ClockPc.step] at hs
    grind
  case h_11 =>
    obtain ⟨y, -, rfl, -⟩ := map_pair_eq hs
    exact ⟨rfl, rfl⟩
  all_goals
    grind [commitPoint, commitEnd, Shared.store, Shared.setLock, Shared.releaseToken,
      Shared.releaseTokenIfHeld]

/-- When no other transaction is active, a thread that starts the reset finds the
committed memory. -/
theorem Regular.start (h : Regular m₀ base s) (hidle : ∀ u, Idle (s.tx u))
    (hpc : (s.tx t).pc = .increment .cas) (hlate : 1 < (s.tx t).endVersion)
    (hothers : ∀ u, u ≠ t → (s.tx u).active = false) :
    Resetting m₀ (s.put t { s.shared with resetLocksThr := t.val }
      { s.tx t with pc := .increment (.reset ⟨0, by decide⟩) }) t := by
  have hcore := h.inv.core t
  obtain ⟨⟨-, hro, -⟩, -⟩ := h.inv.at hpc
  have hmem : s.shared.mem = memAt base s.shared.log s.shared.gClock := by
    funext a
    refine (h.inv.mem a).resolve_right ?_
    rintro ⟨u, n, rest, w, hpc', -⟩
    by_cases hu : u = t
    · subst hu
      rw [hpc] at hpc'
      cases hpc'
    · rcases (hidle u (hothers u hu)).1 with h' | h' <;>
      · rw [h'] at hpc'
        cases hpc'
  refine ⟨⟨.reset ⟨0, by decide⟩, by rw [State.put_tx_self],
    fun j hj => absurd hj (Nat.not_lt_zero _)⟩, ?_, ?_, ?_, ?_, fun u hu => ?_, ?_⟩
  · rw [State.put_tx_self]
    exact hlate
  · rw [State.put_tx_self]
    exact hro
  · rw [State.put_tx_self]
    exact hcore.nodup
  · rw [State.put_tx_self]
    exact hcore.heldWritten
  · rw [State.put_tx_of_ne hu]
    exact hothers u hu
  · have hserial := serialRun_append h.past h.inv.serialRun
    rw [← hmem] at hserial
    exact hserial

theorem schedule_none (n : ℕ) :
    schedule (fun _ => none : ℕ → Option (Trace WordAddr Word)) [] n = [] := by
  induction n with
  | zero => rfl
  | succ n ih => simp [schedule, ih, readOnlyAt]

theorem Resetting.advance (h : Resetting m₀ s t) {p p' : ClockPc}
    (hpc : (s.tx t).pc = .increment p) (hp : ResetAt s.shared p)
    (hs : (p.step s.shared t) = (σ, .inl p')) :
    Resetting m₀ (s.put t σ { s.tx t with pc := .increment p' }) t := by
  have hkey : ResetAt σ p' ∧ σ.mem = s.shared.mem ∧
      σ.past ++ schedule σ.log σ.ro σ.gClock =
        s.shared.past ++ schedule s.shared.log s.shared.ro s.shared.gClock := by
    cases p with
    | reset i =>
        simp only [ClockPc.step, Prod.mk.injEq, Sum.inl.injEq] at hs
        obtain ⟨rfl, rfl⟩ := hs
        refine ⟨?_, rfl, rfl⟩
        have hdone : ∀ j ≤ i, (s.shared.setLock i 0).locks j = 0 := by
          intro j hj
          simp only [Shared.setLock, Function.update_apply]
          split
          · rfl
          · next hne => exact hp j (lt_of_le_of_ne hj hne)
        split
        · exact fun j hj => hdone j (Nat.lt_succ_iff.1 hj)
        · next hlast => exact fun j => hdone j (by
            have := j.isLt
            exact Fin.le_def.2 (by omega))
    | storeClock =>
        simp only [ClockPc.step, Prod.mk.injEq, Sum.inl.injEq] at hs
        obtain ⟨rfl, rfl⟩ := hs
        exact ⟨⟨hp, rfl, rfl, rfl⟩, rfl, by simp [schedule_none]⟩
    | storeThr =>
        simp only [ClockPc.step, Prod.mk.injEq, Sum.inl.injEq] at hs
        obtain ⟨rfl, rfl⟩ := hs
        exact ⟨⟨hp.1, hp.2.1, hp.2.2.1, hp.2.2.2, rfl⟩, rfl, rfl⟩
    | reload => simp [ClockPc.step] at hs
    | add | cas | wait => exact hp.elim
  obtain ⟨hat, hmem, hpast⟩ := hkey
  refine ⟨⟨p', by rw [State.put_tx_self], hat⟩, ?_, ?_, ?_, ?_, fun u hu => ?_, ?_⟩
  · rw [State.put_tx_self]
    exact h.late
  · rw [State.put_tx_self]
    exact h.update
  · rw [State.put_tx_self]
    exact h.nodup
  · rw [State.put_tx_self]
    exact h.heldWritten
  · rw [State.put_tx_of_ne hu]
    exact h.others u hu
  · rw [State.put_shared, hpast, hmem]
    exact h.serial

theorem Resetting.finish (h : Resetting m₀ s t) (hidle : ∀ u, Idle (s.tx u))
    (hp : ResetAt s.shared .reload) :
    Regular m₀ s.shared.mem (s.put t s.shared ((s.tx t).incremented s.shared.gClock)) := by
  obtain ⟨hlocks, hclock, hlog, hro, hthr⟩ := hp
  have hx : (s.tx t).incremented s.shared.gClock = { (s.tx t).abortTx with hist := {} } := by
    rw [Tx.incremented, hclock, if_pos h.late]
  have hothers : ∀ u, u ≠ t → ((s.tx u).pc = .out ∨ (s.tx u).pc = .beginClock) ∧
      s.tx u = { pc := (s.tx u).pc, commitVersion := (s.tx u).commitVersion } :=
    fun u hu => hidle u (h.others u hu)
  have hhist : ∀ u, ((s.put t s.shared { (s.tx t).abortTx with hist := {} }).view
      Tx.hist).tx u = {} := by
    intro u
    by_cases hu : u = t
    · subst hu
      exact State.view_put_tx_self
    · simp only [State.view, State.put_tx_of_ne hu]
      rw [(hothers u hu).2]
  have hfree : ∀ u ℓ, ((s.put t s.shared { (s.tx t).abortTx with hist := {} }).view
      Tx.hist).owner ℓ ≠ some u := by
    intro u ℓ ho
    simp [State.view, hlocks, lockOwner] at ho
  rw [hx]
  refine ⟨?_, ⟨?_, fun ℓ => ?_, fun u => ?_, fun a => .inl ?_⟩, hthr⟩
  · have hserial := h.serial
    rw [hlog, hro, schedule_none, List.append_nil] at hserial
    exact hserial
  · refine VersionLock.Inv.init (fun ℓ => ?_) (fun n => ?_) hro hhist
    · simp [State.view, hlocks, hclock]
    · exact congrFun hlog n
  · simp only [State.put_shared, hlocks]
    exact WordOk.zero
  · by_cases hu : u = t
    · subst hu
      rw [State.put_tx_self]
      refine ⟨?_, rfl⟩
      exact
        { hist := hhist u
          endLe := fun ht => by simp [Tx.tracked, Tx.abortTx, h.update] at ht
          logged := fun _ => by simp
          safe := fun _ _ => by simp
          kept := fun _ _ => by simp
          versionLt := by simp
          writes := by simp [Tx.abortTx, Pc.aborting]
          nodup := h.nodup
          readOnly := fun hr => by simp [Tx.abortTx, h.update] at hr
          update := fun _ _ => h.update
          heldWritten := h.heldWritten
          mayHold := fun ℓ ho => absurd ho (hfree u ℓ) }
    · rw [State.put_tx_of_ne hu, (hothers u hu).2]
      exact TxInv.fresh (hothers u hu).1 _ (hhist u) (hfree u)
  · simp [hlog, hclock, memAt]

theorem resetting_of_resetAt {p : ClockPc} (h : ResetAt σ p) :
    (Pc.increment p).resetting = true := by
  cases p <;> first | rfl | exact h.elim

theorem shared_of_idle (hidle : Idle x) (hx : x.active = false)
    (hs : next t σ x c = some (σ', x')) : σ' = σ := by
  rcases (hidle hx).1 with hpc | hpc <;>
  · cases c <;> simp [next, Tx.look, hpc] at hs
    exact hs.1.symm

theorem Resetting.other (h : Resetting m₀ s t) (hidle : ∀ u, Idle (s.tx u)) {u : TxId}
    (hu : u ≠ t) (hs : next u s.shared (s.tx u) c = some (σ, x))
    (hok : ∀ v, v ≠ t → ((s.put u σ x).tx v).active = false) :
    Resetting m₀ (s.put u σ x) t := by
  obtain rfl := shared_of_idle (hidle u) (h.others u hu) hs
  have ht : (s.put u s.shared x).tx t = s.tx t := State.put_tx_of_ne hu.symm
  refine ⟨?_, ?_, ?_, ?_, ?_, hok, h.serial⟩
  · rw [ht]
    exact h.pc
  · rw [ht]
    exact h.late
  · rw [ht]
    exact h.update
  · rw [ht]
    exact h.nodup
  · rw [ht]
    exact h.heldWritten

theorem EpochInv.step (h : EpochInv m₀ s) {l : TxId × TxCall} (hs : Wbctl.step s l = some s')
    (hok : quietReset s l s') : EpochInv m₀ s' := by
  obtain ⟨σ, x, hnext, rfl⟩ := State.step_eq_some hs
  have hidle : ∀ u, Idle ((s.put l.1 σ x).tx u) := by
    intro u
    by_cases hu : u = l.1
    · subst hu
      rw [State.put_tx_self]
      exact (h.idle l.1).next hnext
    · rw [State.put_tx_of_ne hu]
      exact h.idle u
  refine ⟨hidle, ?_⟩
  obtain ⟨t, c⟩ := l
  simp only at hnext hidle ⊢
  rcases h.phase with ⟨base, hreg⟩ | ⟨u, hreset⟩
  · by_cases hcas : (s.tx t).pc = .increment .cas
    · cases c <;> simp [next, Tx.look, hcas, ClockPc.step, hreg.thr] at hnext
      obtain ⟨rfl, rfl⟩ := hnext
      obtain ⟨hlate, hothers⟩ := hok t (by rw [State.put_tx_self]; rfl)
      rw [State.put_tx_self] at hlate
      refine .inr ⟨t, hreg.start h.idle hcas hlate fun u hu => ?_⟩
      have hu' := hothers u hu
      rwa [State.put_tx_of_ne hu] at hu'
    · have hadd : ∀ p, (s.tx t).pc = .increment p → p = .add := by
        intro p hp
        obtain ⟨-, rfl | ⟨rfl, -⟩⟩ := hreg.inv.at hp
        · rfl
        · exact absurd hp hcas
      obtain ⟨hpast, hthr⟩ := next_past hnext hadd
      exact .inl ⟨base, by rw [State.put_shared, hpast]; exact hreg.past,
        hreg.inv.step hs hcas, by rw [State.put_shared, hthr]; exact hreg.thr⟩
  · obtain ⟨p, hpc, hp⟩ := hreset.pc
    by_cases hu : t = u
    · subst hu
      cases c <;> simp only [next, Tx.look, hpc, Option.map_none, reduceCtorEq] at hnext
      rcases hstep : p.step s.shared t with ⟨σ', p' | version⟩
      · simp only [hstep] at hnext
        obtain ⟨rfl, rfl⟩ := pair_eq hnext
        exact .inr ⟨t, hreset.advance hpc hp hstep⟩
      · simp only [hstep] at hnext
        obtain ⟨rfl, rfl⟩ := pair_eq hnext
        cases p with
        | reload =>
            simp only [ClockPc.step, Prod.mk.injEq, Sum.inr.injEq] at hstep
            obtain ⟨rfl, rfl⟩ := hstep
            exact .inl ⟨_, hreset.finish h.idle hp⟩
        | add | cas | wait => exact hp.elim
        | _ => simp [ClockPc.step] at hstep
    · refine .inr ⟨u, hreset.other h.idle hu hnext (hok u ?_).2⟩
      rw [State.put_tx_of_ne (Ne.symm hu), hpc]
      exact resetting_of_resetAt hp

theorem EpochInv.run (h : Run Wbctl.step quietReset (init m₀) s) : EpochInv m₀ s :=
  h.induction_on ⟨fun _ _ => ⟨.inl rfl, rfl⟩, .inl ⟨m₀, rfl, Inv.init false m₀, rfl⟩⟩
    fun _ _ _ _ hinv hs hok => hinv.step hs hok

end Epoch

end TinySTM.Wbctl
