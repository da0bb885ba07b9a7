import ClangTM.TinySTM.Wbetl.Look

/-!
# The steps of WBETL keep the invariant

One lemma for each step that stores, and `Inv.step`, which puts them together with the
steps that only look. The invariant holds in every run in which the clock stays below
its bound (`Inv.run`).
-/

namespace TinySTM.Wbetl

open Serial VersionLock Transition

section Global

variable {m₀ : WordAddr → Word} {s : State Tx} {t : TxId} {σ : Shared} {x : Tx}

theorem Inv.core (h : Inv m₀ s) (t : TxId) : Core (s.view Tx.hist) t (s.tx t) :=
  (h.tx t).core

theorem Inv.at (h : Inv m₀ s) {pc : Pc} (hpc : (s.tx t).pc = pc) :
    PcInv m₀ (s.view Tx.hist) t { s.tx t with pc := pc } :=
  TxInv.at (h.tx t) hpc

theorem Inv.owner_of_pending (h : Inv m₀ s) {a : WordAddr} {m : Word}
    (hp : Pending (s.tx t) a m) :
    lockOwner (s.shared.locks (lockOf a)) = some t ∧ (s.tx t).hist.done = true := by
  obtain ⟨c, w, rest, i, hpc, ha⟩ := hp
  obtain ⟨-, hd, hpending⟩ := h.at hpc
  obtain ⟨u, hu, rfl⟩ : ∃ u ∈ w :: rest, u.1 = a := by
    rcases ha with ⟨u, hu, rfl⟩ | ⟨rfl, -⟩
    · exact ⟨u, List.mem_cons_of_mem w hu, rfl⟩
    · exact ⟨w, List.mem_cons_self, rfl⟩
  have hcore := h.core t
  exact ⟨hcore.held (by rw [hpc]; rfl) _ (hcore.written u (hpending u hu).1), hd⟩

theorem Inv.backed (h : Inv m₀ s) : Backed m₀ s.shared (s.view Tx.hist) where
  clock := rfl
  owner _ := rfl
  ver _ := rfl
  wordOk := h.word
  mem a hfree := by
    refine (h.mem a).resolve_right ?_
    rintro ⟨t, hp⟩
    obtain ⟨howner, hd⟩ := h.owner_of_pending hp
    exact Bool.false_ne_true ((hfree t howner).symm.trans hd)

theorem not_pending {pc : Pc} (hpc : x.pc = pc) (h : ∀ c w rest i, pc ≠ .writeBack c (w :: rest) i)
    (a : WordAddr) (m : Word) : ¬Pending x a m := by
  rintro ⟨c, w, rest, i, hpc', -⟩
  exact h c w rest i (hpc.symm.trans hpc')

theorem not_pending_of_look {c : TxCall} {x' : Tx} (hs : Tx.look t σ x c = some x')
    (a : WordAddr) (m : Word) : ¬Pending x a m := by
  rintro ⟨n, w, rest, i, hpc, -⟩
  simp [Tx.look, hpc] at hs

theorem Inv.next_look (h : Inv m₀ s) {c : TxCall}
    (hs : Tx.look t s.shared (s.tx t) c = some x) : Next m₀ s t s.shared x :=
  h.next_goes (Shared.Same.refl _) rfl (not_pending_of_look hs)
    (TxInv.look (h.tx t) h.proto h.backed hs)

theorem pending_of_mem {c : ℕ} {ws : List (WordAddr × Word)} {a : WordAddr}
    (hpc : x.pc = .writeBack c ws 0) (ha : ∃ u ∈ ws, u.1 = a) (m : Word) : Pending x a m := by
  obtain ⟨u, hu, rfl⟩ := ha
  cases ws with
  | nil => simp at hu
  | cons w rest =>
      refine ⟨c, w, rest, 0, hpc, ?_⟩
      rcases List.mem_cons.1 hu with rfl | hu
      · exact .inr ⟨rfl, .zero m _⟩
      · exact .inl ⟨u, hu, rfl⟩

theorem Inv.next_commitPoint (h : Inv m₀ s) {last c : ℕ}
    (hpc : (s.tx t).pc = .validate (.extend last (.commit c)) []) :
    Next m₀ s t { s.shared with log := enter s.shared.log c (s.tx t).hist.trace }
      { s.tx t with
        pc := .writeBack c (s.tx t).writeSet 0
        endVersion := last
        hist := { (s.tx t).hist with done := true } } := by
  obtain ⟨hcv, hd, hlast, hchecked⟩ := h.at hpc
  have hcore := h.core t
  have hgoto := hcore.goto_regular (p := .writeBack c (s.tx t).writeSet 0) (by rw [hpc]; rfl) rfl
  have howned : ∀ w ∈ (s.tx t).writeSet, lockOwner (s.shared.locks (lockOf w.1)) = some t :=
    fun w hw => hcore.held (by rw [hpc]; rfl) _ (hcore.written w hw)
  have hwrites := hcore.writes (by rw [hpc]; rfl)
  have hstep : VersionLock.Step lockOf m₀ (s.view Tx.hist) t
      ((s.put t { s.shared with log := enter s.shared.log c (s.tx t).hist.trace }
        { s.tx t with
          pc := .writeBack c (s.tx t).writeSet 0
          endVersion := last
          hist := { (s.tx t).hist with done := true } }).view Tx.hist) := by
    refine State.step_commit Tx.hist m₀ hcv hd (fun r hr => ?_) (fun a w hw => ?_) rfl
    · exact hchecked.safe hr
    · rw [hwrites] at hw
      exact howned (a, w) (mem_of_lookup hw)
  refine ⟨.inr hstep, h.word, ⟨?_, hcv, rfl, fun w hw => ⟨hw, ?_⟩⟩, fun a => ?_⟩
  · exact
      { hgoto with
        hist := State.view_put_tx_self
        endLe := hlast
        known := by simp
        held := hgoto.held
        mayHold := hgoto.mayHold }
  · obtain ⟨hpos, hle⟩ := h.proto.cvLe t c hcv
    refine memAt_enter_of_written hpos hle ?_ fun d u hlt _ hu => ?_
    · rw [hwrites, lookup_of_mem hcore.nodup hw]
    · refine h.proto.unwritten_above (fun u hu => ?_) ?_ hu
      · obtain rfl : t = u := Option.some.inj ((howned w hw).symm.trans hu)
        exact hd
      · exact (h.proto.ownLt t c _ hcv (howned w hw)).trans hlt
  · cases hw : (s.tx t).writeSet.lookup a with
    | some w => exact .inr (.inl (pending_of_mem rfl ⟨(a, w), mem_of_lookup hw, rfl⟩ _))
    | none =>
        refine .inr (.inr ⟨not_pending hpc (by simp) a _, rfl, ?_⟩)
        exact memAt_enter_of_unwritten _ (h.proto.pending t c hcv hd) (by rw [hwrites, hw])

section WriteBack

variable {c : ℕ} {w : WordAddr × Word} {rest : List (WordAddr × Word)} {i : Fin 8}

@[simp] theorem hist_writeByte : (writeByte x c w rest i).hist = x.hist := by
  unfold writeByte
  split <;> rfl

theorem pending_cons {a : WordAddr} {m : Word} (hpc : x.pc = .writeBack c (w :: rest) i)
    (h : Pending x a m) : (∃ u ∈ rest, u.1 = a) ∨ w.1 = a ∧ SameBytes i.val m w.2 := by
  obtain ⟨c', w', rest', i', hpc', ha⟩ := h
  rw [hpc] at hpc'
  obtain ⟨rfl, ⟨rfl, rfl⟩, rfl⟩ : c = c' ∧ (w = w' ∧ rest = rest') ∧ i = i' := by
    simpa using hpc'
  exact ha

theorem pending_writeByte_of_mem {a : WordAddr} (ha : ∃ u ∈ rest, u.1 = a) (m : Word) :
    Pending (writeByte x c w rest i) a m := by
  unfold writeByte
  split
  · exact ⟨c, w, rest, _, rfl, .inl ha⟩
  · exact pending_of_mem rfl ha m

theorem pending_writeByte {m : Word} (h : SameBytes i.val m w.2) :
    setByte m i (byteOf w.2 i) = w.2 ∨
      Pending (writeByte x c w rest i) w.1 (setByte m i (byteOf w.2 i)) := by
  have hsame := h.setByte
  unfold writeByte
  split
  · exact .inr ⟨c, w, rest, _, rfl, .inr ⟨rfl, hsame⟩⟩
  · next hlast =>
      obtain heq : i.val + 1 = 8 := by omega
      rw [heq] at hsame
      exact .inl hsame.eq

theorem TxInv.writeByte {v : Proto} (h : TxInv m₀ v t x)
    (hpc : x.pc = .writeBack c (w :: rest) i) : TxInv m₀ v t (writeByte x c w rest i) := by
  obtain ⟨hcv, hd, hpending⟩ := h.at hpc
  unfold Wbetl.writeByte
  split
  · exact ⟨h.core.goto_regular (by rw [hpc]; rfl) rfl, hcv, hd, hpending⟩
  · exact ⟨h.core.goto_regular (by rw [hpc]; rfl) rfl, hcv, hd,
      fun u hu => hpending u (List.mem_cons_of_mem w hu)⟩

theorem Inv.next_writeBack (h : Inv m₀ s) (hpc : (s.tx t).pc = .writeBack c (w :: rest) i) :
    Next m₀ s t (s.shared.storeByte w.1 i (byteOf w.2 i)) (writeByte (s.tx t) c w rest i) := by
  have hview : (s.put t (s.shared.storeByte w.1 i (byteOf w.2 i))
      (writeByte (s.tx t) c w rest i)).view Tx.hist = s.view Tx.hist :=
    State.view_put_eq ⟨rfl, rfl, rfl, rfl⟩ hist_writeByte
  refine ⟨.inl hview, h.word, hview.symm ▸ TxInv.writeByte (h.tx t) hpc, fun a => ?_⟩
  obtain ⟨-, -, hpending⟩ := h.at hpc
  obtain ⟨hw, hval⟩ := hpending w List.mem_cons_self
  by_cases ha : w.1 = a
  · subst ha
    have hmem : (s.shared.storeByte w.1 i (byteOf w.2 i)).mem w.1 =
        setByte (s.shared.mem w.1) i (byteOf w.2 i) := Function.update_self _ _ _
    rw [hmem]
    rcases h.mem w.1 with hold | ⟨u, hp⟩
    · have hold' : s.shared.mem w.1 = w.2 := hold.trans hval
      rw [hold', setByte_byteOf_self]
      exact .inl hval.symm
    · obtain rfl : t = u := by
        have hown := (h.core t).held (by rw [hpc]; rfl) _ ((h.core t).written w hw)
        exact Option.some.inj (hown.symm.trans (h.owner_of_pending hp).1)
      rcases pending_cons hpc hp with hrest | ⟨-, hsame⟩
      · exact .inr (.inl (pending_writeByte_of_mem hrest _))
      · rcases pending_writeByte hsame with heq | hp'
        · exact .inl (heq.trans hval.symm)
        · exact .inr (.inl hp')
  · by_cases hp : Pending (s.tx t) a (s.shared.mem a)
    · obtain hrest := (pending_cons hpc hp).resolve_right fun heq => ha heq.1
      exact .inr (.inl (pending_writeByte_of_mem hrest _))
    · exact .inr (.inr ⟨hp, Function.update_of_ne (Ne.symm ha) _ _, rfl⟩)

end WriteBack

section

variable (h : Inv m₀ s)
include h

variable {a : WordAddr} {ℓ : LockIdx} {rest : List LockIdx}

theorem Inv.next_acquire {k : Attempt} {w : Word} {p : TryLockPc}
    (hpc : (s.tx t).pc = .tryLock k a w p) (hfree : isOwned (s.shared.locks (lockOf a)) = false) :
    Next m₀ s t (s.shared.setLock (lockOf a) (lockedBy (s.shared.locks (lockOf a)) t))
      { s.tx t with pc := .writeOwned a w } := by
  obtain ⟨hw, -⟩ := h.at hpc
  have hcore := h.core t
  have hx : (s.tx t).pc.regular = true := by rw [hpc]; rfl
  have hstep := State.step_acquire Tx.hist m₀ (s := s) (t := t)
    (x := { s.tx t with pc := .writeOwned a w }) hw.1 hfree rfl
  have hown : ∀ ℓ, (s.view Tx.hist).owner ℓ = some t →
      ((s.put t (s.shared.setLock (lockOf a) (lockedBy (s.shared.locks (lockOf a)) t))
        { s.tx t with pc := .writeOwned a w }).view Tx.hist).owner ℓ = some t := by
    intro ℓ ho
    rw [State.view_setLock_owner, lockOwner_lockedBy]
    split
    · rfl
    · exact ho
  have hd := hcore.not_done h.proto hw.1
  refine ⟨.inr hstep, WordOk.setLock h.word _ (.lockedBy _ t), ⟨?_, hw⟩,
    fun b => .inr (.inr ⟨not_pending hpc (by simp) b _, rfl, rfl⟩)⟩
  exact
    { hcore with
      hist := State.view_put_tx_self
      endLe := hcore.endLe
      known := fun hd' => hcore.known_own h.proto (.inr hstep) hd
        (by rw [State.view_put_tx_self]; exact hd') hown
      writes := fun _ => hcore.writes (releasing_of_regular hx)
      held := fun _ ℓ hℓ => hown ℓ (hcore.held (releasing_of_regular hx) ℓ hℓ)
      mayHold := fun ℓ ho => by
        rw [State.view_setLock_owner] at ho
        split at ho
        · next hℓ => exact .inl hℓ
        · exact .inr (hcore.mem_held hx ho) }

theorem Inv.next_increment {p : ClockPc} (hpc : (s.tx t).pc = .increment p)
    (hmax : s.shared.gClock + 1 < versionMax) :
    Next m₀ s t { s.shared with gClock := s.shared.gClock + 1 }
      ((s.tx t).incremented (s.shared.gClock + 1)) := by
  obtain ⟨hw, -⟩ := h.at hpc
  have hcore := h.core t
  have hd := hcore.not_done h.proto hw.1
  have hstep := State.step_tick Tx.hist m₀ (s := s) (t := t)
    (σ := { s.shared with gClock := s.shared.gClock + 1 })
    (x := (s.tx t).incremented (s.shared.gClock + 1)) hw.1 rfl rfl rfl rfl rfl
  have hgoto := hcore.goto_regular (p := .extendClock (.commit (s.shared.gClock + 1)))
    (by rw [hpc]; rfl) rfl
  refine ⟨.inr hstep, h.word, ⟨?_, rfl, hd⟩,
    fun a => .inr (.inr ⟨not_pending hpc (by simp) a _, rfl, ?_⟩)⟩
  · exact
      { hgoto with
        hist := State.view_put_tx_self
        endLe := hcore.endLe.trans hstep.clock_le
        known := fun hd' => hcore.known_own h.proto (.inr hstep) hd
          (by rw [State.view_put_tx_self]; exact hd') fun _ => id
        versionLt := fun c hc => Option.some.inj hc ▸ hmax
        update := fun _ _ => hw.2
        held := hgoto.held
        mayHold := hgoto.mayHold }
  · exact congrFun (memAt_succ_of_none (h.proto.log_above (Nat.lt_succ_self _))) a

theorem Inv.next_release {c : ℕ} (hpc : (s.tx t).pc = .release c (ℓ :: rest)) :
    Next m₀ s t (s.shared.setLock ℓ (withVersion c)) { s.tx t with pc := .release c rest } := by
  obtain ⟨hcv, hd, hnodup, hown⟩ := h.at hpc
  have hcore := h.core t
  have hlt := hcore.versionLt c hcv
  obtain ⟨hℓ, hnodup'⟩ := List.nodup_cons.1 hnodup
  have hstep := State.step_release Tx.hist m₀ (s := s) (t := t)
    (x := { s.tx t with pc := .release c rest }) hcv hd (hown ℓ List.mem_cons_self)
    (by rw [versionMax_eq] at hlt; omega) rfl
  refine ⟨.inr hstep, WordOk.setLock h.word _ (.withVersion c), ⟨?_, hcv, hd, hnodup', ?_⟩,
    fun b => .inr (.inr ⟨not_pending hpc (by simp) b _, rfl, rfl⟩)⟩
  · exact
      { hcore with
        hist := State.view_put_tx_self
        endLe := hcore.endLe
        known := fun hd' => absurd (hd'.symm.trans hd) Bool.false_ne_true
        writes := by simp [Pc.releasing]
        held := by simp [Pc.releasing]
        mayHold := fun ℓ' ho => by
          rw [State.view_setLock_owner] at ho
          split at ho
          · simp at ho
          · next hne =>
              have hmay := hcore.mayHold ℓ' ho
              rw [hpc] at hmay
              exact (List.mem_cons.1 hmay).resolve_left hne }
  · intro ℓ' hℓ'
    rw [State.view_setLock_owner, if_neg]
    · exact hown ℓ' (List.mem_cons_of_mem ℓ hℓ')
    · rintro rfl
      exact hℓ hℓ'

theorem Inv.next_unlock {p : UnlockPc} (hpc : (s.tx t).pc = .abortUnlock ℓ rest p)
    (hown : lockOwner (s.shared.locks ℓ) = some t) :
    Next m₀ s t (s.shared.setLock ℓ (unlocked (s.shared.locks ℓ)))
      { s.tx t with pc := .abortLocks rest } := by
  obtain ⟨hhist, -⟩ := h.at hpc
  have hcore := h.core t
  have hhist : (s.tx t).hist = {} := hhist
  have hstep := State.step_unlock Tx.hist m₀ (s := s) (t := t)
    (x := { s.tx t with pc := .abortLocks rest }) (by rw [hhist]) hown rfl
  refine ⟨.inr hstep, WordOk.setLock h.word _ (.unlocked _), ⟨?_, hhist⟩,
    fun b => .inr (.inr ⟨not_pending hpc (by simp) b _, rfl, rfl⟩)⟩
  exact
    { hcore with
      hist := State.view_put_tx_self
      endLe := hcore.endLe
      known := fun _ => by simp [hhist]
      writes := by simp [Pc.releasing]
      held := by simp [Pc.releasing]
      mayHold := fun ℓ' ho => by
        rw [State.view_setLock_owner] at ho
        split at ho
        · simp at ho
        · next hne =>
            have hmay := hcore.mayHold ℓ' ho
            rw [hpc] at hmay
            exact hmay.resolve_left hne }

theorem Inv.next_commitEnd (hpc : (s.tx t).pc = .commitToken) :
    Next m₀ s t (commitEnd s.shared (s.tx t)).1 (commitEnd s.shared (s.tx t)).2 := by
  have hkind := h.at hpc
  have hcore := h.core t
  have hfree : ∀ ℓ, (s.view Tx.hist).owner ℓ ≠ some t := by
    intro ℓ ho
    have hℓ := hcore.mayHold ℓ ho
    rwa [hpc] at hℓ
  have hstep : VersionLock.Step lockOf m₀ (s.view Tx.hist) t
      ((s.put t (commitEnd s.shared (s.tx t)).1 (commitEnd s.shared (s.tx t)).2).view
        Tx.hist) := by
    rcases hkind with ⟨hro, hcv, hlast⟩ | hd
    · refine State.step_commitReadOnly Tx.hist m₀ hcv hcore.endLe hlast (fun r hr => ?_) rfl rfl rfl
        (if_pos hro) rfl
      rcases hcore.known (hcore.not_done h.proto hcv) r hr with ⟨-, hsafe⟩ | ⟨ho, -⟩
      · exact hsafe
      · exact absurd ho (hfree _)
    · obtain ⟨c, hcv, -⟩ := h.proto.committed t hd
      have hro : (if (s.tx t).readOnly then ((s.tx t).endVersion, (s.tx t).hist.trace) ::
          s.shared.ro else s.shared.ro) = s.shared.ro := by
        rw [hcore.update c hcv]
        rfl
      have hsame : s.shared.Same (commitEnd s.shared (s.tx t)).1 := ⟨rfl, rfl, rfl, hro⟩
      rw [State.view_put hsame]
      exact .finish hd hfree
  exact ⟨.inr hstep, h.word, TxInv.fresh _ State.view_put_tx_self hfree,
    fun a => .inr (.inr ⟨not_pending hpc (by simp) a _, rfl, rfl⟩)⟩

theorem Inv.next_token {k : Spinner} {w : Word} {p : TokenPc} (hpc : (s.tx t).pc = .token k a w p) :
    match p.step s.shared t with
    | (σ, .inl p') => Next m₀ s t σ { s.tx t with pc := .token k a w p' }
    | (σ, .inr true) => Next m₀ s t σ ((s.tx t).tokenTrue a w k)
    | (σ, .inr false) => Next m₀ s t σ (s.tx t).abortTx := by
  have hcore := h.core t
  have hx : (s.tx t).pc.regular = true := by rw [hpc]; rfl
  have hw : Writing (s.tx t) := h.at hpc
  have hsame := p.step_same s.shared t
  have hmem := p.step_mem s.shared t
  have hgo : ∀ x, Goes m₀ (s.view Tx.hist) t x → Next m₀ s t (p.step s.shared t).1 x :=
    fun x hx => h.next_goes hsame hmem (not_pending hpc (by simp)) hx
  split
  · next p' hp =>
      rw [hp] at hgo
      exact hgo _ (TxInv.goes ⟨hcore.goto_regular hx rfl, hw⟩)
  · next hp =>
      rw [hp] at hgo
      refine hgo _ (TxInv.goes ?_)
      cases k with
      | held =>
          have hgoto := hcore.goto_regular (p := .waitLocked a w) hx rfl
          exact ⟨{ hgoto with }, hw⟩
      | lost =>
          have hgoto := hcore.goto_regular (p := .waitFree a w) hx rfl
          exact ⟨{ hgoto with }, hw⟩
  · next hp =>
      rw [hp] at hgo
      exact hgo _ (hcore.abort_regular hx (hcore.not_done h.proto hw.1))

theorem Inv.next_tryLock {k : Attempt} {w : Word} {p : TryLockPc}
    (hpc : (s.tx t).pc = .tryLock k a w p) :
    match p.step s.shared t (lockOf a) with
    | (σ, .inl p') => Next m₀ s t σ { s.tx t with pc := .tryLock k a w p' }
    | (σ, .inr true) => Next m₀ s t σ { s.tx t with pc := .writeOwned a w }
    | (σ, .inr false) => Next m₀ s t σ ((s.tx t).tryLockFalse a w k) := by
  have hcore := h.core t
  have hx : (s.tx t).pc.regular = true := by rw [hpc]; rfl
  have hnp := not_pending hpc (by simp)
  obtain ⟨hw, hfree⟩ := h.at hpc
  rcases TryLockPc.step_cases hfree s.shared t (lockOf a) with ⟨p', hp, hfree'⟩ | hp | ⟨hp, hl⟩
  · rw [hp]
    exact h.next_goes (Shared.Same.refl _) rfl hnp
      (TxInv.goes ⟨hcore.goto_regular hx rfl, hw, hfree'⟩)
  · rw [hp]
    exact h.next_goes (Shared.Same.refl _) rfl hnp (hcore.tryLockFalse h.proto hx hw k a w)
  · rw [hp]
    exact h.next_acquire hpc hl

theorem Inv.next_abortUnlock {p : UnlockPc} (hpc : (s.tx t).pc = .abortUnlock ℓ rest p) :
    match p.step s.shared t ℓ with
    | (σ, .inl p') => Next m₀ s t σ { s.tx t with pc := .abortUnlock ℓ rest p' }
    | (σ, .inr ()) => Next m₀ s t σ { s.tx t with pc := .abortLocks rest } := by
  have hcore := h.core t
  have hnp := not_pending hpc (by simp)
  obtain ⟨hhist, hknows⟩ := h.at hpc
  rcases UnlockPc.step_cases hknows h.backed with ⟨p', hp, hknows'⟩ | ⟨hp, hne⟩ | ⟨hp, hown⟩
  · rw [hp]
    refine h.next_goes (Shared.Same.refl _) rfl hnp (TxInv.goes
      ⟨hcore.goto (by simp [Pc.releasing]) fun ℓ' _ hℓ => ?_, hhist, hknows'⟩)
    rwa [hpc] at hℓ
  · rw [hp]
    refine h.next_goes (Shared.Same.refl _) rfl hnp (TxInv.goes
      ⟨hcore.goto (by simp [Pc.releasing]) fun ℓ' ho hℓ => ?_, hhist⟩)
    rw [hpc] at hℓ
    refine hℓ.resolve_left ?_
    rintro rfl
    exact hne ho
  · rw [hp]
    exact h.next_unlock hpc hown

theorem Inv.step {l : TxId × TxCall} {s' : State Tx} (hs : step s l = some s')
    (hmax : s'.shared.gClock < versionMax) : Inv m₀ s' := by
  obtain ⟨σ, x, hnext, rfl⟩ := State.step_eq_some hs
  obtain ⟨t, c⟩ := l
  refine SystemNext.inv ?_ TxInv.moves h
  simp only [State.put_shared] at hnext hmax ⊢
  unfold next at hnext
  split at hnext
  case h_1 last n hpc =>
    obtain ⟨rfl, rfl⟩ := pair_eq hnext
    exact h.next_commitPoint hpc
  case h_2 k a w p hpc =>
    have htoken := h.next_token hpc
    rcases hp : p.step s.shared t with ⟨σ', p' | _ | _⟩
    all_goals
      simp only [hp] at hnext htoken
      obtain ⟨rfl, rfl⟩ := pair_eq hnext
      exact htoken
  case h_3 k a w p hpc =>
    have htry := h.next_tryLock hpc
    rcases hp : p.step s.shared t (lockOf a) with ⟨σ', p' | _ | _⟩
    all_goals
      simp only [hp] at hnext htry
      obtain ⟨rfl, rfl⟩ := pair_eq hnext
      exact htry
  case h_4 p hpc =>
    obtain ⟨-, rfl⟩ := h.at hpc
    by_cases hfull : s.shared.gClock + 1 ≥ versionMax
    · simp only [ClockPc.step, hfull, if_true] at hnext
      obtain ⟨rfl, rfl⟩ := pair_eq hnext
      exact absurd hmax (not_lt.2 hfull)
    · simp only [ClockPc.step, hfull, if_false] at hnext
      obtain ⟨rfl, rfl⟩ := pair_eq hnext
      exact h.next_increment hpc hmax
  case h_5 n w rest i hpc =>
    obtain ⟨rfl, rfl⟩ := pair_eq hnext
    exact h.next_writeBack hpc
  case h_6 n ℓ rest hpc =>
    obtain ⟨rfl, rfl⟩ := pair_eq hnext
    exact h.next_release hpc
  case h_7 hpc =>
    obtain ⟨rfl, rfl⟩ := pair_eq hnext
    exact h.next_commitEnd hpc
  case h_8 ℓ rest p hpc =>
    have hunlock := h.next_abortUnlock hpc
    rcases hp : p.step s.shared t ℓ with ⟨σ', p' | _⟩
    all_goals
      simp only [hp] at hnext hunlock
      obtain ⟨rfl, rfl⟩ := pair_eq hnext
      exact hunlock
  case h_9 hpc =>
    obtain ⟨rfl, rfl⟩ := pair_eq hnext
    have hout := h.at hpc
    have hgoto := (h.core t).goto_regular (p := .out) (by rw [hpc]; rfl) rfl
    exact h.next_goes (Shared.same_releaseTokenIfHeld _ t) (Shared.mem_releaseTokenIfHeld _ t)
      (not_pending hpc (by simp)) (TxInv.goes ⟨{ hgoto with }, hout⟩)
  case h_10 =>
    obtain ⟨x', hlook, rfl, rfl⟩ := map_pair_eq hnext
    exact h.next_look hlook

end

theorem Inv.init (m₀ : WordAddr → Word) : Inv m₀ (init m₀) where
  proto := VersionLock.Inv.init (fun ℓ => by simp [State.view, Wbetl.init]) (fun _ => rfl) rfl
    fun _ => rfl
  word _ := WordOk.zero
  tx _ := TxInv.fresh 0 rfl fun ℓ ho => by
    simp [State.view, Wbetl.init, lockOwner] at ho
  mem a := .inl (by simp [Wbetl.init, memAt])

/-- The invariant holds in every run in which the clock stays below its bound. -/
theorem Inv.run {s : State Tx} (h : Transition.Run Wbetl.step belowMax (Wbetl.init m₀) s) :
    Inv m₀ s :=
  h.induction_on (Inv.init m₀) fun _ _ _ _ hinv hs hok => hinv.step hs hok

end Global

end TinySTM.Wbetl
