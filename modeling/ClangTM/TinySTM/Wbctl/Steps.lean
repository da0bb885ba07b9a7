import ClangTM.TinySTM.Wbctl.Look

/-!
# The steps of WBCTL keep the invariant

The invariant of the system is the one of the protocol, what each thread knows, and
the relation of memory to the committed memory. `Next` is what a step has to
establish for it; there is one lemma for each step that stores, and `Inv.step` puts
them together with the steps that only look.
-/

namespace TinySTM.Wbctl

open Serial VersionLock Transition

section Global

variable {all : Bool} {m₀ : WordAddr → Word} {s : State Tx} {t : TxId} {σ : Shared} {x : Tx}

theorem Inv.core (h : Inv all m₀ s) (t : TxId) :
    Core all m₀ (s.view Tx.hist) t (s.tx t) :=
  (h.tx t).core

theorem Inv.at (h : Inv all m₀ s) {pc : Pc} (hpc : (s.tx t).pc = pc) :
    PcInv m₀ (s.view Tx.hist) t { s.tx t with pc := pc } :=
  TxInv.at (h.tx t) hpc

theorem Inv.backed (h : Inv all m₀ s) : Backed m₀ s.shared (s.view Tx.hist) where
  clock := rfl
  owner _ := rfl
  ver _ := rfl
  wordOk := h.word
  mem a hfree := by
    refine (h.mem a).resolve_right ?_
    rintro ⟨t, c, rest, w, hpc, hw⟩
    obtain ⟨-, hd, hlocked, hpending⟩ := h.at hpc
    have howner := hlocked.owner (hpending (a, w) hw).1
    exact Bool.false_ne_true ((hfree t howner).symm.trans hd)

theorem Inv.next_stay (h : Inv all m₀ s) (hσ : s.shared.Same σ) (hmem : σ.mem = s.shared.mem)
    (hnp : ∀ a m, ¬Pending (s.tx t) a m) (hx : TxInv all m₀ (s.view Tx.hist) t x) :
    Next all m₀ s t σ x :=
  h.next_same hσ hmem hnp hx.core.hist.symm hx

theorem not_pending_of_look {c : TxCall} {x' : Tx} (hs : Tx.look t σ x c = some x')
    (a : WordAddr) (m : Word) : ¬Pending x a m := by
  rintro ⟨n, rest, w, hpc, hw⟩
  cases rest with
  | nil => simp at hw
  | cons u rest => simp [Tx.look, hpc] at hs

theorem Inv.next_look (h : Inv all m₀ s) {c : TxCall}
    (hs : Tx.look t s.shared (s.tx t) c = some x) : Next all m₀ s t s.shared x :=
  h.next_goes (Shared.Same.refl _) rfl (not_pending_of_look hs)
    (TxInv.look (h.tx t) h.proto h.backed hs)

theorem not_pending {pc : Pc} (hpc : (s.tx t).pc = pc) (h : ∀ c rest, pc ≠ .writeBack c rest)
    (a : WordAddr) (m : Word) : ¬Pending (s.tx t) a m := by
  rintro ⟨c, rest, w, hpc', -⟩
  exact h c rest (hpc.symm.trans hpc')

section

variable (h : Inv all m₀ s)
include h

variable {c : ℕ} {a : WordAddr}

theorem Inv.next_commitPoint (hpc : (s.tx t).pc = .validate (.commit c) []) :
    Next all m₀ s t { s.shared with log := enter s.shared.log c (s.tx t).hist.trace }
      { s.tx t with
        pc := .writeBack c (s.tx t).writeSet
        hist := { (s.tx t).hist with done := true } } := by
  obtain ⟨hcv, hd, hlocked, hchecked⟩ := h.at hpc
  have hcore := h.core t
  have hgoto := hcore.goto_regular (p := .writeBack c (s.tx t).writeSet) (by rw [hpc]; rfl) rfl
  have howned : ∀ w ∈ (s.tx t).writeSet, lockOwner (s.shared.locks (lockOf w.1)) = some t :=
    fun w hw => hlocked.owner hw
  have hwrites := hcore.writes (by rw [hpc]; rfl)
  have hstep : VersionLock.Step lockOf m₀ (s.view Tx.hist) t
      ((s.put t { s.shared with log := enter s.shared.log c (s.tx t).hist.trace }
        { s.tx t with
          pc := .writeBack c (s.tx t).writeSet
          hist := { (s.tx t).hist with done := true } }).view Tx.hist) := by
    refine State.step_commit Tx.hist m₀ hcv hd (fun r hr => ?_) (fun a w hw => ?_) rfl
    · exact hchecked.safe hr
    · rw [hwrites] at hw
      exact howned (a, w) (mem_of_lookup hw)
  refine ⟨.inr hstep, h.word, ⟨?_, hcv, rfl, ⟨hlocked.owned, hlocked.written⟩,
    fun w hw => ⟨hw, ?_⟩⟩, fun a => ?_⟩
  · exact
      { hgoto with
        hist := State.view_put_tx_self
        endLe := hcore.endLe
        logged := by simp
        safe := by simp
        kept := fun ht _ r hr => by
          obtain ⟨hle, hsafe⟩ := hcore.safe ht hd r hr
          exact (hsafe.kept h.proto hd hr hle).step h.proto hstep (by simp [State.view])
            (hcore.endLe ht)
        mayHold := hgoto.mayHold }
  · obtain ⟨hpos, hle⟩ := h.proto.cvLe t c hcv
    refine memAt_enter_of_written hpos hle ?_ fun d u hlt _ hu => ?_
    · rw [hwrites, lookup_of_mem hcore.nodup hw]
    · refine h.proto.unwritten_above (fun u hu => ?_) ?_ hu
      · obtain rfl : t = u := Option.some.inj ((howned w hw).symm.trans hu)
        exact hd
      · exact (h.proto.ownLt t c _ hcv (howned w hw)).trans hlt
  · cases hw : (s.tx t).writeSet.lookup a with
    | some w => exact .inr (.inl ⟨c, _, w, rfl, mem_of_lookup hw⟩)
    | none =>
        refine .inr (.inr ⟨not_pending hpc (by simp) a _, rfl, ?_⟩)
        exact memAt_enter_of_unwritten _ (h.proto.pending t c hcv hd) (by rw [hwrites, hw])

theorem Inv.next_acquire {rest : List WordAddr} {n : ℕ} {p : TryLockPc}
    (hpc : (s.tx t).pc = .acquireTry a rest n p)
    (hfree : isOwned (s.shared.locks (lockOf a)) = false) :
    Next all m₀ s t (s.shared.setLock (lockOf a) (lockedBy (s.shared.locks (lockOf a)) t))
      { s.tx t with pc := .acquire rest, locksHeld := (s.tx t).locksHeld ++ [lockOf a] } := by
  obtain ⟨⟨hcv, hro, hlocked⟩, -⟩ := h.at hpc
  have hcore := h.core t
  have hstep := State.step_acquire Tx.hist m₀ (s := s) (t := t)
    (x := { s.tx t with pc := .acquire rest, locksHeld := (s.tx t).locksHeld ++ [lockOf a] })
    hcv hfree rfl
  refine ⟨.inr hstep, WordOk.setLock h.word _ (.lockedBy _ t),
    ⟨?_, hcv, hro, fun w hw => ?_, fun b hb => ?_⟩,
    fun b => .inr (.inr ⟨not_pending hpc (by simp) b _, rfl, rfl⟩)⟩
  · refine hcore.own h.proto (.inr hstep) State.view_put_tx_self (fun _ => by rw [hpc]; rfl)
      (fun ℓ hℓ => ?_) fun ℓ ho => ?_
    · rcases List.mem_append.1 hℓ with hℓ | hℓ
      · exact hcore.heldWritten ℓ hℓ
      · obtain ⟨w, hw, hwa⟩ := hlocked.written a List.mem_cons_self
        exact ⟨w, hw, by rw [hwa, List.mem_singleton.1 hℓ]⟩
    · rw [State.view_setLock_owner] at ho
      split at ho
      · next hℓ => exact List.mem_append_right _ (List.mem_singleton.2 hℓ)
      · refine List.mem_append_left _ ?_
        have hℓ := hcore.mayHold ℓ ho
        rwa [hpc] at hℓ
  · rw [State.view_setLock_owner, lockOwner_lockedBy]
    rcases hlocked.owned w hw with hrest | ho
    · rcases List.mem_cons.1 hrest with heq | hrest
      · exact .inr (by rw [heq, if_pos rfl])
      · exact .inl hrest
    · refine .inr ?_
      split
      · rfl
      · exact ho
  · exact hlocked.written b (List.mem_cons_of_mem a hb)

theorem Inv.next_increment {p : ClockPc} (hpc : (s.tx t).pc = .increment p)
    (hmax : s.shared.gClock + 1 < versionMax) :
    Next all m₀ s t { s.shared with gClock := s.shared.gClock + 1 }
      ((s.tx t).incremented (s.shared.gClock + 1)) := by
  obtain ⟨⟨hcv, hro, hlocked⟩, -⟩ := h.at hpc
  have hcore := h.core t
  have hd := hcore.not_done h.proto hcv
  have hmem : ∀ a, memAt m₀ s.shared.log (s.shared.gClock + 1) a =
      memAt m₀ s.shared.log s.shared.gClock a :=
    congrFun (memAt_succ_of_none (h.proto.log_above (Nat.lt_succ_self _)))
  unfold Tx.incremented
  split
  · have hstep := State.step_overflow Tx.hist m₀ (s := s) (t := t)
      (σ := { s.shared with gClock := s.shared.gClock + 1 })
      (x := { (s.tx t).abortTx with hist := {} }) hd rfl rfl rfl rfl rfl
    refine ⟨.inr hstep, h.word, ⟨?_, rfl⟩,
      fun a => .inr (.inr ⟨not_pending hpc (by simp) a _, rfl, hmem a⟩)⟩
    exact
      { hcore with
        hist := State.view_put_tx_self
        endLe := fun ht => (hcore.endLe ht).trans hstep.clock_le
        logged := by simp
        safe := by simp
        kept := by simp
        versionLt := by simp
        writes := by simp [Tx.abortTx, Pc.aborting]
        update := by simp
        mayHold := fun ℓ ho => by
          have hℓ := hcore.mayHold ℓ ho
          rwa [hpc] at hℓ }
  · have hview : (s.put t { s.shared with gClock := s.shared.gClock + 1 } ({ s.tx t with
          hist := { (s.tx t).hist with cv := some (s.shared.gClock + 1) } }.checkGap
            (s.shared.gClock + 1))).view Tx.hist =
        (s.put t { s.shared with gClock := s.shared.gClock + 1 } { s.tx t with
          hist := { (s.tx t).hist with cv := some (s.shared.gClock + 1) } }).view Tx.hist :=
      State.view_put_congr (hist_checkGap (s.shared.gClock + 1))
    have hstep := State.step_tick Tx.hist m₀ (s := s) (t := t)
      (σ := { s.shared with gClock := s.shared.gClock + 1 })
      (x := { s.tx t with hist := { (s.tx t).hist with cv := some (s.shared.gClock + 1) } })
      hcv rfl rfl rfl rfl rfl
    refine ⟨hview ▸ .inr hstep, h.word, hview ▸ ?_,
      fun a => .inr (.inr ⟨not_pending hpc (by simp) a _, rfl, hmem a⟩)⟩
    refine Core.checkGap (x := { s.tx t with
        hist := { (s.tx t).hist with cv := some (s.shared.gClock + 1) } })
      { hcore with
        hist := State.view_put_tx_self
        endLe := fun ht => (hcore.endLe ht).trans hstep.clock_le
        safe := fun ht _ => hcore.safe_own h.proto (.inr hstep) hd ?_ ht
        kept := fun _ hd' => by simp [hd] at hd'
        versionLt := fun c hc => Option.some.inj hc ▸ hmax
        update := fun _ _ => hro
        mayHold := hcore.mayHold } (by rw [hpc]; rfl) rfl hd ⟨hlocked.owned, hlocked.written⟩
    rw [State.view_put_tx_self]
    exact hd

theorem Inv.next_full {p : ClockPc} (hpc : (s.tx t).pc = .increment p)
    (hmax : versionMax ≤ s.shared.gClock + 1) :
    Next all m₀ s t { s.shared with gClock := s.shared.gClock + 1 }
      { s.tx t with pc := .increment .cas } := by
  obtain ⟨⟨hcv, hro, hlocked⟩, -⟩ := h.at hpc
  have hcore := h.core t
  have hstep := State.step_skip Tx.hist m₀ (s := s) (t := t)
    (σ := { s.shared with gClock := s.shared.gClock + 1 })
    (x := { s.tx t with pc := .increment .cas }) rfl rfl rfl rfl rfl
  refine ⟨.inr hstep, h.word, ⟨?_, ⟨hcv, hro, ⟨hlocked.owned, hlocked.written⟩⟩, .inr ⟨rfl, hmax⟩⟩,
    fun a => .inr (.inr ⟨not_pending hpc (by simp) a _, rfl, ?_⟩)⟩
  · refine hcore.own h.proto (.inr hstep) State.view_put_tx_self (fun _ => by rw [hpc]; rfl)
      hcore.heldWritten fun ℓ ho => ?_
    have hℓ := hcore.mayHold ℓ ho
    rwa [hpc] at hℓ
  · exact congrFun (memAt_succ_of_none (h.proto.log_above (Nat.lt_succ_self _))) a

theorem Inv.next_writeBack {w : WordAddr × Word} {rest : List (WordAddr × Word)}
    (hpc : (s.tx t).pc = .writeBack c (w :: rest)) :
    Next all m₀ s t (s.shared.store w.1 w.2) { s.tx t with pc := .writeBack c rest } := by
  obtain ⟨hcv, hd, hlocked, hpending⟩ := h.at hpc
  have hcore := h.core t
  have hview : (s.put t (s.shared.store w.1 w.2) { s.tx t with pc := .writeBack c rest }).view
      Tx.hist = s.view Tx.hist :=
    State.view_put_eq ⟨rfl, rfl, rfl, rfl⟩ rfl
  refine ⟨.inl hview, h.word, hview.symm ▸ ⟨hcore.goto_regular (by rw [hpc]; rfl) rfl, hcv, hd,
    hlocked, fun u hu => hpending u (List.mem_cons_of_mem w hu)⟩, fun a => ?_⟩
  by_cases ha : a = w.1
  · subst ha
    refine .inl ((Function.update_self _ _ _).trans ?_)
    exact (hpending w List.mem_cons_self).2.symm
  · by_cases hp : Pending (s.tx t) a (s.shared.mem a)
    · obtain ⟨c', rest', u, hpc', hu⟩ := hp
      rw [hpc] at hpc'
      obtain ⟨rfl, rfl⟩ : c = c' ∧ w :: rest = rest' := by simpa using hpc'
      rcases List.mem_cons.1 hu with rfl | hu
      · exact absurd rfl ha
      · exact .inr (.inl ⟨c, rest, u, rfl, hu⟩)
    · exact .inr (.inr ⟨hp, Function.update_of_ne ha _ _, rfl⟩)

theorem Inv.next_release {rest : List (WordAddr × Word)}
    (hpc : (s.tx t).pc = .releaseStore c a rest) :
    Next all m₀ s t (s.shared.setLock (lockOf a) (withVersion c))
      { s.tx t with pc := .release c rest } := by
  obtain ⟨hcv, hd, ho⟩ := h.at hpc
  have hcore := h.core t
  have hlt := hcore.versionLt c hcv
  have hstep := State.step_release Tx.hist m₀ (s := s) (t := t)
    (x := { s.tx t with pc := .release c rest }) hcv hd ho
    (by rw [versionMax_eq] at hlt; omega) rfl
  refine ⟨.inr hstep, WordOk.setLock h.word _ (.withVersion c), ⟨?_, hcv, hd⟩,
    fun b => .inr (.inr ⟨not_pending hpc (by simp) b _, rfl, rfl⟩)⟩
  refine hcore.own h.proto (.inr hstep) State.view_put_tx_self (fun _ => by rw [hpc]; rfl)
    hcore.heldWritten fun ℓ hℓ => ?_
  rw [State.view_setLock_owner] at hℓ
  split at hℓ
  · simp at hℓ
  · next hne =>
      have hmay := hcore.mayHold ℓ hℓ
      rw [hpc] at hmay
      exact hmay.resolve_left fun heq => hne heq.symm

theorem Inv.next_unlock {ℓ : LockIdx} {rest : List LockIdx} {p : UnlockPc}
    (hpc : (s.tx t).pc = .abortUnlock ℓ rest p) (hown : lockOwner (s.shared.locks ℓ) = some t) :
    Next all m₀ s t (s.shared.setLock ℓ (unlocked (s.shared.locks ℓ)))
      { s.tx t with pc := .abortLocks rest } := by
  obtain ⟨hd, -⟩ := h.at hpc
  have hcore := h.core t
  have hstep := State.step_unlock Tx.hist m₀ (s := s) (t := t)
    (x := { s.tx t with pc := .abortLocks rest }) hd hown rfl
  refine ⟨.inr hstep, WordOk.setLock h.word _ (.unlocked _), ⟨?_, hd⟩,
    fun b => .inr (.inr ⟨not_pending hpc (by simp) b _, rfl, rfl⟩)⟩
  refine hcore.own h.proto (.inr hstep) State.view_put_tx_self (by simp [Pc.aborting])
    hcore.heldWritten fun ℓ' hℓ => ?_
  rw [State.view_setLock_owner] at hℓ
  split at hℓ
  · simp at hℓ
  · next hne =>
      have hmay := hcore.mayHold ℓ' hℓ
      rw [hpc] at hmay
      exact hmay.resolve_left hne

theorem Inv.next_commitEnd (hpc : (s.tx t).pc = .commitToken c) :
    Next all m₀ s t (commitEnd s.shared (s.tx t) c).1 (commitEnd s.shared (s.tx t) c).2 := by
  obtain ⟨hheld, hkind⟩ := h.at hpc
  have hcore := h.core t
  have hfree : ∀ ℓ, (s.view Tx.hist).owner ℓ ≠ some t := by
    intro ℓ ho
    have hℓ := hcore.mayHold ℓ ho
    rw [hpc] at hℓ
    have hmem : ℓ ∈ (s.tx t).locksHeld := hℓ
    rw [hheld] at hmem
    simp at hmem
  have hstep : VersionLock.Step lockOf m₀ (s.view Tx.hist) t
      ((s.put t (commitEnd s.shared (s.tx t) c).1
        (commitEnd s.shared (s.tx t) c).2).view Tx.hist) := by
    rcases hkind with ⟨hro, hcv⟩ | hd
    · have ht : (s.tx t).tracked all = true := by
        rw [Tx.tracked, show (s.tx t).readOnly = true from hro, Bool.or_true]
      refine State.step_commitReadOnly Tx.hist m₀ hcv (hcore.endLe ht) (fun a => ?_)
        (hcore.safe ht (hcore.not_done h.proto hcv)) rfl rfl rfl (if_pos hro) rfl
      rw [hcore.writes (by rw [hpc]; rfl), hcore.readOnly hro]
      rfl
    · obtain ⟨c', hcv, -⟩ := h.proto.committed t hd
      have hro : (if (s.tx t).readOnly then ((s.tx t).endVersion, (s.tx t).hist.trace) ::
          s.shared.ro else s.shared.ro) = s.shared.ro := by
        rw [hcore.update c' hcv]
        rfl
      have hsame : s.shared.Same (commitEnd s.shared (s.tx t) c).1 := ⟨rfl, rfl, rfl, hro⟩
      rw [State.view_put hsame]
      exact .finish hd hfree
  exact ⟨.inr hstep, h.word, TxInv.fresh (.inl rfl) c State.view_put_tx_self hfree,
    fun a => .inr (.inr ⟨not_pending hpc (by simp) a _, rfl, rfl⟩)⟩

theorem Inv.next_token {k : Spinner} {p : TokenPc} (hpc : (s.tx t).pc = .token k p) :
    match p.step s.shared t with
    | (σ, .inl p') => Next all m₀ s t σ { s.tx t with pc := .token k p' }
    | (σ, .inr true) => Next all m₀ s t σ ((s.tx t).tokenTrue k)
    | (σ, .inr false) => Next all m₀ s t σ (s.tx t).abortTx := by
  have hcore := h.core t
  have hx : (s.tx t).pc.regular = true := by rw [hpc]; rfl
  have hk : k.Inv (s.view Tx.hist) t (s.tx t) := by
    have hhere := h.at hpc
    cases k <;> exact hhere
  have hcv : (s.tx t).hist.cv = none := by
    cases k <;> exact hk.1
  have hsame := p.step_same s.shared t
  have hmem := p.step_mem s.shared t
  have hstay : ∀ x, TxInv all m₀ (s.view Tx.hist) t x →
      Next all m₀ s t (p.step s.shared t).1 x :=
    fun x hx => h.next_stay hsame hmem (not_pending hpc (by simp)) hx
  split
  · next p' hp =>
      rw [hp] at hstay
      exact hstay _ ⟨hcore.goto_regular hx rfl, by cases k <;> exact hk⟩
  · next hp =>
      rw [hp] at hstay
      refine hstay _ ?_
      cases k with
      | readWord a l spin => exact hcore.readLoop h.proto hx spin hk.1 hk.2.1 hk.2.2
      | writeWord a w => exact ⟨hcore.goto_regular hx rfl, hk⟩
      | commitLock a rest n => exact ⟨hcore.goto_regular hx rfl, hk, TryLockPc.free_load⟩
  · next hp =>
      rw [hp] at hstay
      exact hstay _ (hcore.abortTx hx (hcore.not_done h.proto hcv))

theorem Inv.next_acquireTry {rest : List WordAddr} {n : ℕ} {p : TryLockPc}
    (hpc : (s.tx t).pc = .acquireTry a rest n p) :
    match p.step s.shared t (lockOf a) with
    | (σ, .inl p') => Next all m₀ s t σ { s.tx t with pc := .acquireTry a rest n p' }
    | (σ, .inr true) => Next all m₀ s t σ
        { s.tx t with pc := .acquire rest, locksHeld := (s.tx t).locksHeld ++ [lockOf a] }
    | (σ, .inr false) =>
        Next all m₀ s t σ { s.tx t with pc := .extendClock (.commitLock a rest n) } := by
  have hcore := h.core t
  have hx : (s.tx t).pc.regular = true := by rw [hpc]; rfl
  have hnp := not_pending hpc (by simp)
  obtain ⟨hacq, hfree⟩ := h.at hpc
  rcases TryLockPc.step_cases hfree s.shared t (lockOf a) with ⟨p', hp, hfree'⟩ | hp | ⟨hp, hl⟩
  · rw [hp]
    exact h.next_stay (Shared.Same.refl _) rfl hnp ⟨hcore.goto_regular hx rfl, hacq, hfree'⟩
  · rw [hp]
    exact h.next_stay (Shared.Same.refl _) rfl hnp ⟨hcore.goto_regular hx rfl, hacq⟩
  · rw [hp]
    exact h.next_acquire hpc hl

theorem Inv.next_abortUnlock {ℓ : LockIdx} {rest : List LockIdx} {p : UnlockPc}
    (hpc : (s.tx t).pc = .abortUnlock ℓ rest p) :
    match p.step s.shared t ℓ with
    | (σ, .inl p') => Next all m₀ s t σ { s.tx t with pc := .abortUnlock ℓ rest p' }
    | (σ, .inr ()) => Next all m₀ s t σ { s.tx t with pc := .abortLocks rest } := by
  have hcore := h.core t
  have hnp := not_pending hpc (by simp)
  obtain ⟨hd, hknows⟩ := h.at hpc
  rcases UnlockPc.step_cases hknows h.backed with ⟨p', hp, hknows'⟩ | ⟨hp, hne⟩ | ⟨hp, hown⟩
  · rw [hp]
    refine h.next_stay (Shared.Same.refl _) rfl hnp
      ⟨hcore.goto (by simp [Pc.aborting]) fun ℓ' _ hℓ => ?_, hd, hknows'⟩
    rwa [hpc] at hℓ
  · rw [hp]
    refine h.next_stay (Shared.Same.refl _) rfl hnp
      ⟨hcore.goto (by simp [Pc.aborting]) fun ℓ' ho hℓ => ?_, hd⟩
    rw [hpc] at hℓ
    refine hℓ.resolve_left ?_
    rintro rfl
    exact hne ho
  · rw [hp]
    exact h.next_unlock hpc hown

theorem Inv.step {l : TxId × TxCall} {s' : State Tx} (hs : step s l = some s')
    (hcas : (s.tx l.1).pc ≠ .increment .cas) : Inv all m₀ s' := by
  obtain ⟨σ, x, hnext, rfl⟩ := State.step_eq_some hs
  obtain ⟨t, c⟩ := l
  refine SystemNext.inv ?_ TxInv.moves h
  simp only at hnext hcas ⊢
  unfold next at hnext
  split at hnext
  case h_1 n hpc =>
    obtain ⟨rfl, rfl⟩ := pair_eq hnext
    exact h.next_commitPoint hpc
  case h_2 k p hpc =>
    have htoken := h.next_token hpc
    rcases hp : p.step s.shared t with ⟨σ', p' | _ | _⟩
    all_goals
      simp only [hp] at hnext htoken
      obtain ⟨rfl, rfl⟩ := pair_eq hnext
      exact htoken
  case h_3 a rest n p hpc =>
    have htry := h.next_acquireTry hpc
    rcases hp : p.step s.shared t (lockOf a) with ⟨σ', p' | _ | _⟩
    all_goals
      simp only [hp] at hnext htry
      obtain ⟨rfl, rfl⟩ := pair_eq hnext
      exact htry
  case h_4 p hpc =>
    obtain ⟨-, rfl | ⟨rfl, -⟩⟩ := h.at hpc
    · by_cases hmax : s.shared.gClock + 1 ≥ versionMax
      · simp only [ClockPc.step, hmax, if_true] at hnext
        obtain ⟨rfl, rfl⟩ := pair_eq hnext
        exact h.next_full hpc hmax
      · simp only [ClockPc.step, hmax, if_false] at hnext
        obtain ⟨rfl, rfl⟩ := pair_eq hnext
        exact h.next_increment hpc (not_le.1 hmax)
    · exact absurd hpc hcas
  case h_5 n w rest hpc =>
    obtain ⟨rfl, rfl⟩ := pair_eq hnext
    exact h.next_writeBack hpc
  case h_6 n a rest p hpc => exact (h.at hpc).elim
  case h_7 n a rest hpc =>
    obtain ⟨rfl, rfl⟩ := pair_eq hnext
    exact h.next_release hpc
  case h_8 n hpc =>
    obtain ⟨rfl, rfl⟩ := pair_eq hnext
    exact h.next_commitEnd hpc
  case h_9 ℓ rest p hpc =>
    have hunlock := h.next_abortUnlock hpc
    rcases hp : p.step s.shared t ℓ with ⟨σ', p' | _⟩
    all_goals
      simp only [hp] at hnext hunlock
      obtain ⟨rfl, rfl⟩ := pair_eq hnext
      exact hunlock
  case h_10 hpc =>
    obtain ⟨rfl, rfl⟩ := pair_eq hnext
    have hhist : (s.tx t).hist = {} := h.at hpc
    exact h.next_stay (Shared.same_releaseTokenIfHeld _ t) (Shared.mem_releaseTokenIfHeld _ t)
      (not_pending hpc (by simp)) ⟨(h.core t).goto_regular (by rw [hpc]; rfl) rfl, hhist⟩
  case h_11 =>
    obtain ⟨x', hlook, rfl, rfl⟩ := map_pair_eq hnext
    exact h.next_look hlook

end

theorem Inv.init (all : Bool) (m₀ : WordAddr → Word) : Inv all m₀ (init m₀) where
  proto := VersionLock.Inv.init (fun ℓ => by simp [State.view, Wbctl.init]) (fun _ => rfl) rfl
    fun _ => rfl
  word _ := WordOk.zero
  tx _ := TxInv.fresh (.inl rfl) 0 rfl fun ℓ ho => by
    simp [State.view, Wbctl.init, lockOwner] at ho
  mem a := .inl (by simp [Wbctl.init, memAt])

/-- The invariant holds in every run in which the clock stays below its bound, since
no reset starts there. -/
theorem Inv.run {s : State Tx} (h : Transition.Run Wbctl.step belowMax (Wbctl.init m₀) s) :
    Inv true m₀ s ∧ s.shared.gClock < versionMax := by
  refine h.induction_on (P := fun s => Inv true m₀ s ∧ s.shared.gClock < versionMax)
    ⟨Inv.init true m₀, by simp [Wbctl.init, versionMax_eq]⟩ fun s₁ l s₂ _ hinv hs hok => ⟨?_, hok⟩
  refine hinv.1.step hs fun hpc => ?_
  obtain ⟨-, hp | ⟨-, hmax⟩⟩ := hinv.1.at hpc
  · cases hp
  · exact absurd hinv.2 (not_lt.2 hmax)

end Global

end TinySTM.Wbctl
