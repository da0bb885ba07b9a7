import ClangTM.Simulator.TmModel.Invariant

/-!
# The commit of the TM model

A commit takes the locks of its write set one after another, all of them free when it starts,
and gives every one of them back: with the version it had when the commit fails, and with the
commit version when it succeeds. Two words of the write set that share a lock make it fail,
since the second one finds the lock taken.
-/

namespace Simulator.TmModel

open Serial LockWord

variable {s s₁ s' : TmModel} {t : Tid} {held : List LockIdx}

section Locks

variable {f : Word → Word} {li : LockIdx}

theorem mapLocks_cons (s : TmModel) (f : Word → Word) (li : LockIdx) (held : List LockIdx) :
    s.mapLocks f (li :: held) = (s.mapLocks f [li]).mapLocks f held :=
  rfl

theorem mapLocks_of_not_mem (h : li ∉ held) : (s.mapLocks f held).locks li = s.locks li := by
  induction held generalizing s with
  | nil => rfl
  | cons k held ih =>
      rw [mapLocks_cons, ih (fun hm => h (List.mem_cons_of_mem _ hm))]
      exact Function.update_of_ne (fun heq : li = k => h (heq ▸ List.mem_cons_self)) _ _

/-- A function that leads to words from which it can be applied again reaches them at every
lock of the list, also at one that occurs twice. -/
theorem mapLocks_of_mem {P Q : Word → Prop} (hf : ∀ l, P l → Q (f l)) (hQ : ∀ l, Q l → P l)
    (h : li ∈ held) (hl : P (s.locks li)) : Q ((s.mapLocks f held).locks li) := by
  induction held generalizing s with
  | nil => cases h
  | cons k held ih =>
      have hself : k = li → Q ((s.mapLocks f [k]).locks li) := by
        rintro rfl
        show Q (Function.update s.locks k (f (s.locks k)) k)
        rw [Function.update_self]
        exact hf _ hl
      rw [mapLocks_cons]
      by_cases hin : li ∈ held
      · refine ih hin ?_
        by_cases hk : k = li
        · exact hQ _ (hself hk)
        · show P (Function.update s.locks k (f (s.locks k)) li)
          rw [Function.update_of_ne (Ne.symm hk)]
          exact hl
      · rw [mapLocks_of_not_mem hin]
        exact hself ((List.mem_cons.1 h).resolve_right hin).symm

def Releasable (t : Tid) (l : Word) : Prop := owner l = tidWord t ∨ isLocked l = false

theorem unlockOwner_free {l : Word} (h : Releasable t l) :
    isLocked (unlockOwner l (tidWord t)) = false ∧
      version (unlockOwner l (tidWord t)) = version l := by
  rcases h with h | h
  · exact unlockOwner_of_owner h
  · exact unlockOwner_of_free _ h

theorem isLocked_setVersion (l v : Word) : isLocked (setVersion l v) = isLocked l := by
  rw [Bool.eq_iff_iff, isLocked_iff, isLocked_iff]
  refine exists_congr fun i => and_congr_right fun hi => ?_
  rw [getLsbD_setVersion _ _ (by omega), if_pos (by omega)]

/-- The locks of a list, and those that were free, are free after the list is released, and
have the versions they had. -/
theorem mapLocks_unlockOwner (held : List LockIdx)
    (hP : ∀ li, li ∈ held ∨ isLocked (s.locks li) = false)
    (hheld : ∀ li ∈ held, Releasable t (s.locks li)) (li : LockIdx) :
    isLocked ((s.mapLocks (unlockOwner · (tidWord t)) held).locks li) = false ∧
      version ((s.mapLocks (unlockOwner · (tidWord t)) held).locks li) =
        version (s.locks li) := by
  by_cases hin : li ∈ held
  · refine mapLocks_of_mem (P := fun l => Releasable t l ∧ version l = version (s.locks li))
      (Q := fun l => isLocked l = false ∧ version l = version (s.locks li)) ?_ ?_ hin
      ⟨hheld li hin, rfl⟩
    · rintro l ⟨hl, hv⟩
      exact ⟨(unlockOwner_free hl).1, (unlockOwner_free hl).2.trans hv⟩
    · exact fun l hl => ⟨.inr hl.1, hl.2⟩
  · rw [mapLocks_of_not_mem hin]
    exact ⟨(hP li).resolve_left hin, rfl⟩

/-- The locks of a list are free after they are released with a version, and have it. -/
theorem mapLocks_unlockWithVersion {v : Word} (hheld : ∀ li ∈ held, Releasable t (s.locks li))
    (hin : li ∈ held) :
    isLocked ((s.mapLocks (unlockWithVersion · (tidWord t) v) held).locks li) = false ∧
      version ((s.mapLocks (unlockWithVersion · (tidWord t) v) held).locks li) =
        v &&& versionMask := by
  refine mapLocks_of_mem (P := Releasable t)
    (Q := fun l => isLocked l = false ∧ version l = v &&& versionMask) (fun l hl => ?_)
    (fun l hl => .inr hl.1) hin (hheld li hin)
  have hset : Releasable t (setVersion l v) := by
    rw [Releasable, owner_setVersion, isLocked_setVersion]
    exact hl
  obtain ⟨hfree, hver⟩ := unlockOwner_free hset
  exact ⟨hfree, hver.trans (version_setVersion l v)⟩

end Locks

/-- `s` is `s₀` with some locks taken by `t`. -/
structure Taken (t : Tid) (s₀ : TmModel) (held : List LockIdx) (s : TmModel) : Prop where
  same : s = { s₀ with locks := s.locks }
  locked : ∀ li ∈ held, s.locks li = lockedBy (s₀.locks li) (tidWord t)
  other : ∀ li ∉ held, s.locks li = s₀.locks li

namespace Taken

variable {s₀ : TmModel} (h : Taken t s₀ held s)
include h

theorem releasable : ∀ li ∈ held, Releasable t (s.locks li) := fun li hli => by
  rw [h.locked li hli]
  exact .inl (owner_lockedBy _ _)

theorem free (hcore : Core s₀) (li : LockIdx) : li ∈ held ∨ isLocked (s.locks li) = false := by
  by_cases hin : li ∈ held
  · exact .inl hin
  · rw [h.other li hin]
    exact .inr (hcore.free li)

theorem version_eq (li : LockIdx) : version (s.locks li) = version (s₀.locks li) := by
  by_cases hin : li ∈ held
  · rw [h.locked li hin, version_lockedBy]
  · rw [h.other li hin]

theorem snoc {li : LockIdx} (hin : li ∉ held) :
    Taken t s₀ (held ++ [li])
      { s with locks := Function.update s.locks li (lockedBy (s.locks li) (tidWord t)) } where
  same := by rw [h.same]
  locked k hk := by
    show Function.update s.locks li _ k = _
    by_cases heq : k = li
    · subst heq
      rw [Function.update_self, h.other k hin]
    · rw [Function.update_of_ne heq]
      exact h.locked k ((List.mem_append.1 hk).resolve_right (by simpa using heq))
  other k hk := by
    have hne : k ≠ li := fun heq => hk (heq ▸ List.mem_append_right _ List.mem_cons_self)
    show Function.update s.locks li _ k = _
    rw [Function.update_of_ne hne]
    exact h.other k fun hm => hk (List.mem_append_left _ hm)

end Taken

theorem acquire_eq_ok {li : LockIdx} {n : ℕ} (h : acquire s t li n = .ok s') :
    isLocked (s.locks li) = false ∧
      s' = { s with locks := Function.update s.locks li (lockedBy (s.locks li) (tidWord t)) } := by
  induction n with
  | zero => cases h
  | succ n ih =>
      unfold acquire tryLock at h
      by_cases hl : isLocked (s.locks li) = true
      · simp only [hl, if_true] at h
        split at h
        · exact ih h
        · cases h
      · rw [Bool.not_eq_true] at hl
        simp only [hl, Bool.false_eq_true, if_false] at h
        cases h
        exact ⟨hl, rfl⟩

/-- Phase 1 of a commit: some locks are taken, and all of them if it succeeds. -/
theorem acquireAll_taken {s₀ : TmModel} (h : Taken t s₀ held s) (addrs : List Word) :
    Taken t s₀ (acquireAll s t held addrs).2.1 (acquireAll s t held addrs).1 ∧
      ((acquireAll s t held addrs).2.2 = none →
        (acquireAll s t held addrs).2.1 = held ++ addrs.map addrToLockIdx) := by
  induction addrs generalizing s held with
  | nil => exact ⟨h, fun _ => (List.append_nil _).symm⟩
  | cons addr addrs ih =>
      rw [acquireAll]
      cases ha : acquire s t (addrToLockIdx addr) spinIterations with
      | error reason => exact ⟨h, fun hnone => by cases hnone⟩
      | ok s' =>
          obtain ⟨hfree, rfl⟩ := acquire_eq_ok ha
          have hin : addrToLockIdx addr ∉ held := by
            intro hm
            rw [h.locked _ hm, isLocked_lockedBy] at hfree
            cases hfree
          obtain ⟨htaken, hall⟩ := ih (h.snoc hin)
          refine ⟨htaken, fun hnone => (hall hnone).trans ?_⟩
          rw [List.map_cons, List.append_assoc]
          rfl

theorem Taken.init (t : Tid) (s : TmModel) : Taken t s [] s where
  same := rfl
  locked _ h := by cases h
  other _ _ := rfl

theorem Core.stampsAt_clock (h : Core s) (hclock : s'.clock = s.clock ∨ s'.clock = s.clock + 1) :
    stampsAt s.log s'.clock = stampsAt s.log s.clock := by
  rcases hclock with hclock | hclock
  · rw [hclock]
  · have hnone : s.log (s.clock + 1) = none := by
      cases hw : s.log (s.clock + 1) with
      | none => rfl
      | some w =>
          have := (h.logLe _ w hw).2
          omega
    rw [hclock]
    exact memAt_succ_of_none hnone

/-- A call that commits nothing and leaves all locks free, with the versions they had. -/
theorem Core.good_of_versions (h : Core s) (hlt : s'.clock < 2 ^ 46)
    (hclock : s'.clock = s.clock ∨ s'.clock = s.clock + 1) (hpast : s'.past = s.past)
    (hlog : s'.log = s.log) (hro : s'.ro = s.ro)
    (hlocks : ∀ li, isLocked (s'.locks li) = false ∧
      version (s'.locks li) = version (s.locks li))
    (hother : ∀ u, u ≠ t → s'.txStates u = s.txStates u)
    (hself : Snapshot s.log s.clock (s'.txStates t)) : Good s s' := by
  have hle : s.clock ≤ s'.clock ∧ s'.clock ≤ s.clock + 1 := by omega
  have htx : ∀ u, Snapshot s.log s.clock (s'.txStates u) := fun u => by
    by_cases hu : u = t
    · exact hu ▸ hself
    · rw [hother u hu]
      exact h.tx u
  refine ⟨⟨hlt, fun li => (hlocks li).1, fun li => ?_, ?_, fun c w hw => ?_, ?_, ?_, fun u => ?_⟩,
    ⟨hle.1, hle.2, hpast, fun n _ => by rw [hlog]⟩⟩
  · rw [hlog, h.stampsAt_clock hclock, ← h.ver li, versions, (hlocks li).2]
  · rw [hlog]
    exact h.stamped
  · rw [hlog] at hw
    obtain ⟨hpos, hc⟩ := h.logLe c w hw
    exact ⟨hpos, hc.trans hle.1⟩
  · rw [hlog]
    exact h.logLegal
  · rw [hlog, hro]
    exact fun r hr => ⟨(h.roLegal r hr).1.trans hle.1, (h.roLegal r hr).2⟩
  · rw [hlog]
    exact ⟨(htx u).held, (htx u).start_le, (htx u).end_le.trans hle.1, (htx u).reads⟩

theorem Snapshot.ended {log : ℕ → Option (Trace LockIdx ℕ)} {now : ℕ} {x y : TxState}
    (h : Snapshot log now x) (hstart : y.startVersion = x.startVersion)
    (hend : y.endVersion = x.endVersion) (hreads : y.readSet = []) (hheld : y.locksHeld = []) :
    Snapshot log now y where
  held := hheld
  start_le := by rw [hstart, hend]; exact h.start_le
  end_le := by rw [hend]; exact h.end_le
  reads r hr := by
    rw [hreads] at hr
    cases hr

theorem tmAbortReason_locks (s : TmModel) (t : Tid) (reason : AbortReason) :
    (s.tmAbortReason t reason).locks =
      (s.mapLocks (unlockOwner · (tidWord t)) (s.txStates t).locksHeld).locks :=
  rfl

theorem tmAbortReason_tx_self (s : TmModel) (t : Tid) (reason : AbortReason) :
    (s.tmAbortReason t reason).txStates t =
      { s.txStates t with readSet := [], writeSet := [], locksHeld := [], active := false } :=
  Function.update_self _ _ _

theorem tmAbortReason_tx_of_ne {u : Tid} (hu : u ≠ t) (s : TmModel) (reason : AbortReason) :
    (s.tmAbortReason t reason).txStates u = s.txStates u :=
  Function.update_of_ne hu _ _

theorem tmAbortReason_good (h : Core s) (t : Tid) (reason : AbortReason) :
    Good s (s.tmAbortReason t reason) := by
  refine h.good_of_versions (t := t) h.lt (.inl rfl) rfl rfl rfl (fun li => ?_) (fun u hu => ?_) ?_
  · rw [tmAbortReason_locks, (h.tx t).held]
    exact ⟨h.free li, rfl⟩
  · exact tmAbortReason_tx_of_ne hu s reason
  · rw [tmAbortReason_tx_self]
    exact (h.tx t).ended rfl rfl rfl rfl

/-- A commit gives up: with the locks it holds noted in the transaction or not, and with the
clock moved or not. -/
theorem commitAbort_good {s₀ : TmModel} (h : Core s₀) (htaken : Taken t s₀ held s)
    (hlocks : s'.locks = s.locks) (hlt : s'.clock < 2 ^ 46)
    (hclock : s'.clock = s₀.clock ∨ s'.clock = s₀.clock + 1) (hpast : s'.past = s₀.past)
    (hlog : s'.log = s₀.log) (hro : s'.ro = s₀.ro)
    (hother : ∀ u, u ≠ t → s'.txStates u = s₀.txStates u)
    (hstart : (s'.txStates t).startVersion = (s₀.txStates t).startVersion)
    (hend : (s'.txStates t).endVersion = (s₀.txStates t).endVersion) (reason : AbortReason) :
    Good s₀ (s'.commitAbort t held reason) := by
  have hfree : ∀ li, isLocked ((s'.mapLocks (unlockOwner · (tidWord t)) held).locks li) = false ∧
      version ((s'.mapLocks (unlockOwner · (tidWord t)) held).locks li) =
        version (s₀.locks li) := fun li => by
    obtain ⟨hf, hv⟩ := mapLocks_unlockOwner (s := s') (t := t) held
      (by rw [hlocks]; exact htaken.free h) (by rw [hlocks]; exact htaken.releasable) li
    rw [hlocks, htaken.version_eq] at hv
    exact ⟨hf, hv⟩
  refine h.good_of_versions (t := t) hlt hclock hpast hlog hro (fun li => ?_) (fun u hu => ?_) ?_
  · obtain ⟨hf, hv⟩ := mapLocks_unlockOwner (t := t)
      (s := s'.mapLocks (unlockOwner · (tidWord t)) held) (s'.txStates t).locksHeld
          (fun li => .inr (hfree li).1)
      (fun li _ => .inr (hfree li).1) li
    rw [commitAbort, tmAbortReason_locks]
    exact ⟨hf, hv.trans (hfree li).2⟩
  · exact (tmAbortReason_tx_of_ne hu _ reason).trans (hother u hu)
  · rw [commitAbort, tmAbortReason_tx_self]
    exact (h.tx t).ended hstart hend rfl rfl

def Covers (held : List LockIdx) (x : TxState) : Prop :=
  ∀ li, li ∈ held ↔ ∃ w ∈ x.writeSet, addrToLockIdx w.addr = li

/-- A commit succeeds: the locks of the words written get the next version, and the transaction
enters the log with it. -/
theorem good_of_commit {s₀ : TmModel} {x : TxState} {c : ℕ} (h : Core s₀)
    (hx : Snapshot s₀.log s₀.clock x) (hc : c = s₀.clock + 1) (hlt : s'.clock < 2 ^ 46)
    (hvalid : ∀ r ∈ x.readSet,
      ¬r.observedVersion < version (s₀.locks (addrToLockIdx r.addr)))
    (hclock : s'.clock = c) (hpast : s'.past = s₀.past)
    (hlog : s'.log = enter s₀.log c (x.writes c ++ x.reads)) (hro : s'.ro = s₀.ro)
    (hfree : ∀ li, isLocked (s'.locks li) = false)
    (hver : ∀ li, s'.versions li =
      if ∃ w ∈ x.writeSet, addrToLockIdx w.addr = li then c else s₀.versions li)
    (hother : ∀ u, u ≠ t → s'.txStates u = s₀.txStates u)
    (hself : Snapshot s₀.log s₀.clock (s'.txStates t)) : Good s₀ s' := by
  have hwrites : ∀ li, lastWrite (x.writes c ++ x.reads) li =
      if ∃ w ∈ x.writeSet, addrToLockIdx w.addr = li then some c else none := fun li => by
    rw [TxState.writes, lastWrite_writes_append, TxState.reads, lastWrite_reads]
  have hold : ∀ n ≤ s₀.clock, stampsAt s'.log n = stampsAt s₀.log n := fun n hn => by
    rw [hlog]
    exact memAt_enter_of_lt _ (by omega)
  have hlegal : Legal (stampsAt s₀.log s₀.clock) (x.writes c ++ x.reads) := by
    rw [TxState.writes, legal_writes_append, TxState.reads, legal_reads]
    exact fun r hr => h.version_eq hx hr (hvalid r hr)
  have htx : ∀ u, Snapshot s₀.log s₀.clock (s'.txStates u) := fun u => by
    by_cases hu : u = t
    · exact hu ▸ hself
    · rw [hother u hu]
      exact h.tx u
  refine ⟨⟨hlt, hfree, fun li => ?_, ?_, fun d w hw => ?_, fun d w hw => ?_, fun r hr => ?_,
    fun u => ?_⟩, ⟨by omega, by omega, hpast, hold⟩⟩
  · have hfinal : stampsAt s'.log c = final (stampsAt s₀.log s₀.clock) (x.writes c ++ x.reads) := by
      rw [hlog, hc]
      exact (memAt_succ_of_some (enter_self _ _ _)).trans
        (by rw [memAt_enter_of_lt _ (Nat.lt_succ_self _)]; rfl)
    rw [hclock, hfinal, final_eq_getD, hwrites li, hver li, h.ver li]
    split <;> rfl
  · rw [hlog]
    refine h.stamped.enter fun a v hv => ?_
    rw [hwrites a] at hv
    split at hv
    · exact (Option.some.inj hv).symm
    · cases hv
  · by_cases hd : d = c
    · omega
    · rw [hlog, enter_of_ne _ hd] at hw
      obtain ⟨hpos, hle⟩ := h.logLe d w hw
      exact ⟨hpos, by omega⟩
  · by_cases hd : d = c
    · subst hd
      rw [hlog, enter_self] at hw
      obtain rfl := Option.some.inj hw
      rw [hold _ (by omega), hc, Nat.add_sub_cancel]
      rw [hc] at hlegal
      exact hlegal
    · rw [hlog, enter_of_ne _ hd] at hw
      obtain ⟨hpos, hle⟩ := h.logLe d w hw
      rw [hold _ (by omega)]
      exact h.logLegal d w hw
  · rw [hro] at hr
    obtain ⟨hle, hrest⟩ := h.roLegal r hr
    rw [hold _ hle]
    exact ⟨by omega, hrest⟩
  · refine ⟨(htx u).held, (htx u).start_le, (htx u).end_le.trans (by omega), fun r hr => ?_⟩
    rw [hold _ (htx u).end_le]
    exact (htx u).reads r hr

theorem toNat_succ {v : Word} (h : v.toNat < 2 ^ 46) : (v + 1).toNat = v.toNat + 1 := by
  rw [BitVec.toNat_add, show (1 : Word).toNat = 1 from rfl]
  exact Nat.mod_eq_of_lt (by omega)

theorem commitEnd_tx_self (s : TmModel) (t : Tid) :
    (s.commitEnd t).txStates t =
      { s.txStates t with active := false, readSet := [], writeSet := [], locksHeld := [] } :=
  Function.update_self _ _ _

theorem commitEnd_tx_of_ne {u : Tid} (hu : u ≠ t) : (s.commitEnd t).txStates u = s.txStates u :=
  Function.update_of_ne hu _ _

theorem commitReadOnly_good (h : Core s) :
    Good s ({ s with ro := ((s.txStates t).endVersion.toNat, (s.txStates t).reads) ::
      s.ro }.commitEnd t) := by
  have hx := h.tx t
  refine ⟨⟨h.lt, h.free, h.ver, h.stamped, h.logLe, h.logLegal, fun r hr => ?_, fun u => ?_⟩,
    .of_eq rfl rfl rfl⟩
  · rcases List.mem_cons.1 hr with rfl | hr
    · refine ⟨hx.end_le, ?_, fun a => lastWrite_reads _ _ _ a⟩
      rw [TxState.reads, legal_reads]
      exact hx.reads
    · exact h.roLegal r hr
  · by_cases hu : u = t
    · subst hu
      rw [commitEnd_tx_self]
      exact hx.ended rfl rfl rfl rfl
    · rw [commitEnd_tx_of_ne hu]
      exact h.tx u

theorem commitHeld_good {s₀ : TmModel} (h : Core s₀) (htaken : Taken t s₀ held s)
    (hheld : Covers held (s₀.txStates t)) (hlt : (s.commitHeld t held).2.clock < 2 ^ 46) :
    Good s₀ (s.commitHeld t held).2 := by
  have htx : s.txStates = s₀.txStates := by rw [htaken.same]
  have hglobal : s.globalClock = s₀.globalClock := by rw [htaken.same]
  have hsucc : (s.globalClock + 1).toNat = s₀.clock + 1 := by
    rw [hglobal]
    exact toNat_succ h.lt
  have hx := h.tx t
  unfold commitHeld at hlt ⊢
  dsimp only at hlt ⊢
  split at hlt
  · next hvalid =>
      rw [if_pos hvalid]
      have hlocks : ∀ li, isLocked ((s.mapLocks
          (unlockWithVersion · (tidWord t) (s.globalClock + 1)) held).locks li) = false ∧
          (version ((s.mapLocks (unlockWithVersion · (tidWord t) (s.globalClock + 1))
            held).locks li)).toNat =
            if ∃ w ∈ (s₀.txStates t).writeSet, addrToLockIdx w.addr = li then s₀.clock + 1
            else s₀.versions li := fun li => by
        by_cases hin : li ∈ held
        · obtain ⟨hfree, hver⟩ := mapLocks_unlockWithVersion (v := s.globalClock + 1)
            htaken.releasable hin
          rw [if_pos ((hheld li).1 hin), hver, toNat_and_versionMask, hsucc]
          refine ⟨hfree, Nat.mod_eq_of_lt ?_⟩
          rw [← hsucc]
          exact hlt
        · rw [if_neg (fun hw => hin ((hheld li).2 hw)), mapLocks_of_not_mem hin,
            htaken.other li hin]
          exact ⟨h.free li, rfl⟩
      refine good_of_commit (x := s₀.txStates t) (t := t) h hx rfl hlt (fun r hr => ?_) hsucc
        (by rw [htaken.same]; rfl) ?_ (by rw [htaken.same]; rfl) (fun li => (hlocks li).1)
        (fun li => (hlocks li).2) (fun u hu => ?_) ?_
      · have hr' := (validateReadSet_iff.1 hvalid r (by
          show r ∈ (Function.update s.txStates t _ t).readSet
          rw [Function.update_self, htx]
          exact hr)).2
        rw [← htaken.version_eq]
        exact hr'
      · show enter s.log (s.globalClock + 1).toNat
          ((Function.update s.txStates t _ t).writes (s.globalClock + 1).toNat ++
            (Function.update s.txStates t _ t).reads) = _
        rw [Function.update_self, hsucc, htx, show s.log = s₀.log by rw [htaken.same]]
        rfl
      · rw [commitEnd_tx_of_ne hu, ← htx]
        exact Function.update_of_ne hu _ _
      · rw [commitEnd_tx_self]
        refine hx.ended ?_ ?_ rfl rfl
        · show (Function.update s.txStates t _ t).startVersion = _
          rw [Function.update_self, htx]
        · show (Function.update s.txStates t _ t).endVersion = _
          rw [Function.update_self, htx]
  · next hvalid =>
      rw [if_neg hvalid]
      show Good s₀ (commitAbort _ t held .commitValidateFail)
      refine commitAbort_good h htaken ?_ ?_ (.inr hsucc) ?_ ?_ ?_ (fun u hu => ?_) ?_ ?_ _
      · rfl
      · exact hlt
      · rw [htaken.same]
        rfl
      · rw [htaken.same]
        rfl
      · rw [htaken.same]
        rfl
      · rw [← htx]
        exact Function.update_of_ne hu _ _
      · show (Function.update s.txStates t _ t).startVersion = _
        rw [Function.update_self, htx]
      · show (Function.update s.txStates t _ t).endVersion = _
        rw [Function.update_self, htx]

theorem mem_sortedAddrs {x : TxState} {addr : Word} :
    addr ∈ sortedAddrs x ↔ ∃ w ∈ x.writeSet, w.addr = addr := by
  rw [sortedAddrs, List.mem_dedup, (List.perm_insertionSort _ _).mem_iff, List.mem_map]

theorem tmCommit_good (h : Core s) (hlt : (s.tmCommit t).2.clock < 2 ^ 46) :
    Good s (s.tmCommit t).2 := by
  unfold tmCommit at hlt ⊢
  dsimp only at hlt ⊢
  by_cases hactive : (!(s.txStates t).active) = true
  · rw [if_pos hactive]
    exact .refl h
  · rw [if_neg hactive] at hlt ⊢
    by_cases hro : (s.txStates t).readOnly = true
    · rw [if_pos hro]
      exact commitReadOnly_good h
    · rw [if_neg hro] at hlt ⊢
      obtain ⟨htaken, hall⟩ := acquireAll_taken (.init t s) (sortedAddrs (s.txStates t))
      split at hlt
      · next s₁ held heq =>
          rw [heq] at htaken hall
          refine commitHeld_good h htaken (fun li => ?_) hlt
          rw [show held = [] ++ _ from hall rfl, List.nil_append, List.mem_map]
          constructor
          · rintro ⟨addr, haddr, rfl⟩
            obtain ⟨w, hw, rfl⟩ := mem_sortedAddrs.1 haddr
            exact ⟨w, hw, rfl⟩
          · rintro ⟨w, hw, rfl⟩
            exact ⟨w.addr, mem_sortedAddrs.2 ⟨w, hw, rfl⟩, rfl⟩
      · next s₁ held reason heq =>
          rw [heq] at htaken
          refine commitAbort_good h htaken rfl hlt (.inl ?_) (by rw [htaken.same])
            (by rw [htaken.same]) (by rw [htaken.same]) (fun u _ => by rw [htaken.same])
            (by rw [htaken.same]) (by rw [htaken.same]) _
          rw [htaken.same]

theorem tmEnd_good (h : Core s) (hlt : (s.tmEnd t).2.clock < 2 ^ 46) :
    Good s (s.tmEnd t).2 := by
  unfold tmEnd at hlt ⊢
  by_cases hvalid : s.validateReadSet t = true
  · rw [if_pos hvalid] at hlt ⊢
    exact tmCommit_good h hlt
  · rw [if_neg hvalid]
    exact tmAbortReason_good h t _

end Simulator.TmModel
