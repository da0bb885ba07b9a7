import Mathlib.Data.Fintype.Basic
import ClangTM.MVLog.Order
import ClangTM.MVLog.Sequential

/-!
# Memory between commits of the C++ log

The accesses of a transaction one by one, when no other one is under way, and what follows for
memory between two transactions. A commit that folds the log and has itself written a cell of
an older entry puts the older value back.
-/

namespace MVLog

open Serial Transition

section Access

variable {T : Type} {m₀ : CellAddr → Word} {σ σ' : Shared T} {x x' : Tx} {t : T}

theorem live_waitFrom (n : ℕ) : (x.waitFrom n).live = some x.slot := by
  unfold Tx.waitFrom
  split
  · rfl
  · rfl

theorem holding_waitFrom (n : ℕ) : (x.waitFrom n).pc.phase.holding = false := by
  unfold Tx.waitFrom
  dsimp only
  split <;> rfl

theorem seqMem_pubFrom (hmem : σ.mem = value m₀ σ.pubs) (i : ℕ) :
    SeqMem m₀ σ (x.pubFrom .cpp i) := by
  unfold Tx.pubFrom
  rw [nextInline_eq]
  split
  · exact hmem
  · split
    · exact hmem
    · exact hmem

theorem seqMem_validateFrom (hmem : σ.mem = value m₀ σ.pubs) (rest : List (CellAddr × Word)) :
    SeqMem m₀ σ (x.validateFrom .cpp rest) := by
  cases rest with
  | nil => exact hmem
  | cons r rest => exact hmem

theorem seqMem_pubMemFrom {rest : List (CellAddr × Word)}
    (hmem : MemInv .cpp m₀ σ.store (x.pubMemFrom rest)) : SeqMem m₀ σ (x.pubMemFrom rest) := by
  unfold Tx.pubMemFrom at hmem ⊢
  split at hmem
  · next hnil => rwa [if_pos hnil]
  · next hnil => rwa [if_neg hnil]

theorem reading_of_decide (hp : x.pc.phase = .decide) : x.pc.reading = none :=
  reading_of_phase (by rw [hp]; intro heq; cases heq)

variable (h : SeqInv m₀ σ x)
include h

theorem SeqInv.store {f : LogEntry → LogEntry} (hp : x.pc.phase = .decide)
    (hq : x'.pc.phase = .decide) (hslot : x'.slot = x.slot) (htag : ∀ e, (f e).tag = e.tag)
    (hstate : ∀ e, (f e).state = e.state) (hpub : x'.Publishing .cpp (f (σ.entry x.slot)))
    (hmem : SeqMem m₀ (σ.setEntry x.slot f) x') (hbuf : Buffering x') :
    SeqInv m₀ (σ.setEntry x.slot f) x' := by
  have hn := live_of_decide hp
  have hb : x.pc.phase.begins = none := by rw [hp]; rfl
  have hprogress := h.ring.progress x.slot hn hb
  refine ⟨h.ring.setEntry hn (fun k hk => ?_) (.inl ?_) ?_ ?_ (fun _ => ?_) (fun _ => ?_) ?_, hmem,
    h.left.goto rfl rfl rfl (fun _ => hp), hbuf⟩
  · rw [hb] at hk
    cases hk
  · rw [live_of_decide hq, hslot]
  · rw [hq]
    intro heq
    cases heq
  · rw [hstate, hprogress]
    intro heq
    cases heq
  · rw [htag]
    exact h.ring.tag x.slot hn (by rw [hp]; intro heq; cases heq)
  · rw [hstate]
    exact hprogress
  · rw [hslot, Shared.entry_setEntry]
    exact hpub

theorem SeqInv.abort (hn : x.live = some x.slot) (hb : x.pc.phase.begins = none)
    (hlive : x'.live = none) (hq : x'.pc.phase = .idle ∨ x'.pc.phase = .claim)
    (hmem : σ.mem = value m₀ σ.pubs) (hbuf : Buffering x') :
    SeqInv m₀ (σ.setEntry x.slot fun e => { e with state := .aborted }) x' := by
  have hqd : x'.pc.phase ≠ .decide := by rcases hq with hq | hq <;> rw [hq] <;> simp
  have hqd' : x'.pc.phase ≠ .done := by rcases hq with hq | hq <;> rw [hq] <;> simp
  refine ⟨h.ring.setEntry hn (fun k hk => ?_) (.inr hlive) hqd' (by simp) (fun hl => ?_)
    (fun hl => ?_) (publishing_of_ne hqd _), (seqMem_iff hqd hqd').2 hmem,
    h.left.goto rfl rfl rfl (fun hd => absurd hd hqd), hbuf⟩
  · rw [hb] at hk
    cases hk
  · rw [hlive] at hl
    cases hl
  · rw [hlive] at hl
    cases hl

theorem SeqInv.publish (hp : x.pc.phase = .decide)
    (hholds : Holds .cpp (σ.entry x.slot) x.writeSet)
    (hmem : ∀ a, σ.mem a = (x.writeSet.lookup a).getD (value m₀ σ.pubs a))
    (hq : x'.pc.phase = .done) (hslot : x'.slot = x.slot) (hws : x'.writeSet = x.writeSet)
    (hrs : x'.readSet = x.readSet) (hops : x'.ops = x.ops)
    (hmem' : σ.mem = value m₀ (publish σ x).pubs → SeqMem m₀ (publish σ x) x') :
    SeqInv m₀ (publish σ x) x' := by
  obtain ⟨hpos, hnone⟩ := h.left.empty hp
  have hbefore : memAt m₀ σ.history (σ.turn - 1) = value m₀ σ.pubs := by
    rw [← h.left.leaves]
    obtain ⟨k, hk⟩ := Nat.exists_eq_succ_of_ne_zero hpos.ne'
    rw [hk] at hnone ⊢
    exact (memAt_succ_of_none hnone).symm
  have hnot : x'.pc.phase ≠ .run := by rw [hq]; intro heq; cases heq
  refine ⟨h.ring.publish hp h.buffering.buffered.nodup hholds hq hslot hws, hmem' ?_, ⟨?_, ?_, ?_⟩,
    h.buffering.goto hops hws hrs (.inl (reading_of_phase hnot))⟩
  · funext a
    exact (hmem a).trans (value_cons ..).symm
  · funext a
    show memAt m₀ (enter σ.history σ.turn x.ops) σ.turn a = value m₀
        ((x.slot, x.writeSet) :: σ.pubs) a
    rw [memAt_pred_of_some (enter_self _ _ _) hpos, memAt_enter_of_lt x.ops (by omega), hbefore,
      value_cons]
    exact h.buffering.buffered.final_eq _ a
  · intro n hn
    have hn : σ.turn < n := hn
    show enter σ.history σ.turn x.ops n = none
    rw [enter_of_ne _ (by omega)]
    exact h.left.later n hn
  · intro hd
    rw [hq] at hd
    cases hd

theorem SeqInv.run (hp : x.pc.phase = .run) (hq : x'.pc.phase = .run) (hslot : x'.slot = x.slot)
    (hbuf : Buffering x') : SeqInv m₀ σ x' := by
  refine h.quiet hp hq rfl rfl rfl (.inl ?_) hbuf
  simp [Tx.live, hp, hq, hslot]

theorem SeqInv.waits {p : Phase} {n : ℕ} (hp : x.pc.phase = p) (hb : p.begins = none)
    (hph : p.holding = false) (hlive : x.live = some x.slot) (w : ℕ) :
    SeqInv m₀ σ (({ x with win := w } : Tx).waitFrom n) :=
  h.quiet hp rfl hb hph (holding_waitFrom n) (.inl ((live_waitFrom n).trans hlive.symm))
    (h.buffering.goto rfl rfl rfl (.inl (reading_waitFrom n)))

variable (hacc : access .cpp t σ x = some (σ', x'))
include hacc

theorem seq_access_run (hp : x.pc.phase = .run) : SeqInv m₀ σ' x' := by
  have hlive : x.live = some x.slot := by simp [Tx.live, hp]
  unfold access at hacc
  cases hpc : x.pc
  all_goals rw [hpc] at hacc
  all_goals try obtain ⟨rfl, rfl⟩ := pair_eq hacc
  case body =>
    cases hacc
  case bloomFirst a =>
    split
    · exact h.run hp rfl rfl (h.buffering.goto rfl rfl rfl (.inr (by rw [hpc]; rfl)))
    · exact h.run hp rfl rfl (h.buffering.goto rfl rfl rfl (.inr (by rw [hpc]; rfl)))
  case bloomSecond a =>
    split
    · exact h.run hp rfl rfl (h.buffering.goto rfl rfl rfl (.inr (by rw [hpc]; rfl)))
    · exact h.run hp rfl rfl (h.buffering.goto rfl rfl rfl (.inr (by rw [hpc]; rfl)))
  case readMem a =>
    exact h.run hp rfl rfl (h.buffering.observe (by rw [hpc]; rfl) _)
  case resolve a k r =>
    cases k with
    | read =>
        have hreading : x.pc.reading = some a := by rw [hpc]; rfl
        split
        · exact h.run hp rfl rfl (h.buffering.goto rfl rfl rfl (.inr hreading.symm))
        · exact h.run hp rfl rfl (h.buffering.observe hreading _)
    | validate observed rest => simp [hpc, Pc.phase] at hp
  case commitWm =>
    exact h.waits hp rfl rfl hlive σ.gWm
  all_goals simp [hpc, Pc.phase] at hp

omit hacc in
theorem SeqInv.decide (hp : x.pc.phase = .decide) (hq : x'.pc.phase = .decide)
    (hσ : SameLog σ σ') (hslot : x'.slot = x.slot) (hws : x'.writeSet = x.writeSet)
    (hrs : x'.readSet = x.readSet) (hops : x'.ops = x.ops)
    (hpub : x'.Publishing .cpp (σ.entry x'.slot)) (hmem : SeqMem m₀ σ' x') : SeqInv m₀ σ' x' := by
  refine h.goto hσ (by rw [hp]; rfl) (.inl ?_) hpub (fun hd => ?_) (fun _ => hp) hmem
    (h.buffering.goto hops hws hrs (.inl (reading_of_decide hq)))
  · rw [live_of_decide hp, live_of_decide hq, hslot]
  · rw [hq] at hd
    cases hd

theorem seq_access_decide (hp : x.pc.phase = .decide) : SeqInv m₀ σ' x' := by
  have hpub := h.ring.publishing
  have hmem := h.memory
  unfold Tx.Publishing at hpub
  unfold SeqMem MemInv at hmem
  unfold access at hacc
  cases hpc : x.pc
  all_goals rw [hpc] at hacc hmem hpub
  all_goals try obtain ⟨rfl, rfl⟩ := pair_eq hacc
  case resolve a k r =>
    cases k with
    | read => simp [hpc, Pc.phase] at hp
    | validate observed rest =>
        split
        · exact h.decide hp rfl (.refl _) rfl rfl rfl rfl trivial hmem
        · unfold Tx.resolved
          dsimp only
          split
          · obtain ⟨p, heq, hq, hpub⟩ := validateFrom_eq .cpp x rest
            have hmem' := seqMem_validateFrom (x := x) hmem rest
            rw [heq] at hmem' ⊢
            exact h.decide hp hq (.refl _) rfl rfl rfl rfl (hpub _) hmem'
          · exact h.decide hp rfl (.refl _) rfl rfl rfl rfl trivial hmem
  case conflictRelease =>
    refine h.goto ⟨rfl, rfl, rfl, rfl, rfl⟩ (by rw [hp]; rfl) ?_ trivial (fun hd => by cases hd)
      (fun hd => by cases hd) hmem (.idle rfl rfl rfl rfl)
    by_cases hactive : x.active = true
    · exact .inl ((if_pos hactive).trans (live_of_decide hp).symm)
    · exact .inr (if_neg hactive)
  case resetCount =>
    split
    · next hnil =>
        exact h.store hp rfl rfl (fun _ => rfl) (fun _ => rfl) ⟨hnil, rfl⟩ hmem
          (h.buffering.goto rfl rfl rfl (.inl rfl))
    · refine h.store hp (phase_pubFrom 0) rfl (fun _ => rfl) (fun _ => rfl)
        (publishing_pubFrom (Nat.zero_le _) (.zero _ _)) (seqMem_pubFrom ?_ 0)
        (h.buffering.goto rfl rfl rfl (.inl (reading_of_decide (phase_pubFrom 0))))
      exact hmem
  case readOnlyState =>
    obtain ⟨hnil, hcount⟩ := hpub
    refine h.publish hp (hnil ▸ .nil hcount) (fun a => ?_) rfl rfl rfl rfl rfl fun hm => hm
    rw [hnil]
    exact congrFun hmem a
  case pubAddr i =>
    obtain ⟨w, hw, rfl, rfl⟩ := map_pair_eq hacc
    refine h.store hp rfl rfl (fun _ => rfl) (fun _ => rfl)
      ⟨hpub.1, hpub.2.setAddr w.1, fun u hu => ?_⟩ hmem (h.buffering.goto rfl rfl rfl (.inl rfl))
    obtain rfl : w = u := Option.some.inj (hw.symm.trans hu)
    exact Function.update_self _ _ _
  case pubVal i =>
    obtain ⟨w, hw, rfl, rfl⟩ := map_pair_eq hacc
    refine h.store hp (phase_pubFrom _) rfl (fun _ => rfl) (fun _ => rfl)
      (publishing_pubFrom hpub.1 (hpub.2.1.setVal hw (hpub.2.2 w hw))) (seqMem_pubFrom ?_ _)
      (h.buffering.goto rfl rfl rfl (.inl (reading_of_decide (phase_pubFrom _))))
    exact hmem
  case pubOverflow =>
    exact h.store hp rfl rfl (fun _ => rfl) (fun _ => rfl) ⟨hpub.congr rfl rfl, fun _ => rfl⟩ hmem
      (h.buffering.goto rfl rfl rfl (.inl rfl))
  case pubCount =>
    have hmem : σ.mem = value m₀ σ.pubs := hmem
    refine h.store hp (phase_pubMemFrom _) rfl (fun _ => rfl) (fun _ => rfl)
      (publishing_pubMemFrom _ ⟨rfl, hpub.1.congr rfl rfl, hpub.2⟩)
      (seqMem_pubMemFrom (memInv_pubMemFrom (S := σ.store) (m := σ.mem) List.suffix_rfl
        fun a => ?_))
      (h.buffering.goto rfl rfl rfl (.inl (reading_of_decide (phase_pubMemFrom _))))
    show σ.mem a = if _ then value m₀ σ.pubs a else _
    rw [hmem]
    cases x.writeSet.lookup a <;> rfl
  case pubMem rest =>
    obtain ⟨w, hw, rfl, rfl⟩ := map_pair_eq hacc
    obtain ⟨rest, rfl⟩ := List.head?_eq_some_iff.1 hw
    exact h.decide hp (phase_pubMemFrom _) ⟨rfl, rfl, rfl, rfl, rfl⟩ rfl rfl rfl rfl
      (publishing_pubMemFrom _ hpub)
      (seqMem_pubMemFrom (memInv_pubMem h.buffering.buffered.nodup hmem.1 hmem.2))
  case pubState =>
    refine h.publish hp hpub hmem ?_ rfl rfl rfl rfl fun hm => ?_
    · unfold Tx.pubIndexFrom
      dsimp only
      split <;> rfl
    · unfold Tx.pubIndexFrom
      split
      · exact hm
      · exact hm
  all_goals simp [hpc, Pc.phase] at hp

theorem seq_access_done (hp : x.pc.phase = .done)
    (happart : ∀ a ∈ x.pc.foldTarget, x.writeSet.lookup a = none) : SeqInv m₀ σ' x' := by
  have hmem := h.memory
  unfold access at hacc
  unfold SeqMem MemInv at hmem
  cases hpc : x.pc
  all_goals rw [hpc] at hacc hmem happart
  all_goals try obtain ⟨rfl, rfl⟩ := pair_eq hacc
  case readOnlyRelease | release =>
    exact h.goto ⟨rfl, rfl, rfl, rfl, rfl⟩ (by rw [hp]; rfl) (.inr rfl) trivial
      (fun hd => by cases hd) (fun hd => by cases hd) hmem (.idle rfl rfl rfl rfl)
  case pubIndex rest =>
    obtain ⟨w, hw, rfl, rfl⟩ := map_pair_eq hacc
    unfold Tx.pubIndexFrom
    split
    · exact h.goto ⟨rfl, rfl, rfl, rfl, rfl⟩ (by rw [hp]; rfl) (.inr rfl) trivial
        (fun _ => ⟨hp, rfl, rfl⟩) (fun hd => by cases hd) hmem
        (h.buffering.goto rfl rfl rfl (.inl rfl))
    · exact h.goto ⟨rfl, rfl, rfl, rfl, rfl⟩ (by rw [hp]; rfl) (.inr rfl) trivial
        (fun _ => ⟨hp, rfl, rfl⟩) (fun hd => by cases hd) hmem
        (h.buffering.goto rfl rfl rfl (.inl rfl))
  case dueWm =>
    split
    · exact h.done hp (goesOn_foldFrom _) (.refl _) (seqMem_foldFrom (.of_eq hmem))
    · refine h.done hp (goesOn_dirtyFrom _) (.refl _) ?_
      unfold Tx.dirtyFrom
      split
      · exact hmem
      · exact hmem
  case foldTag n =>
    split
    · exact h.done hp (goesOn_pc rfl rfl) (.refl _) hmem
    · next htag =>
        exact h.done hp (goesOn_foldFrom _) (.refl _)
          (seqMem_foldFrom (pending_skip h.ring hmem.2 fun heq => absurd heq htag))
  case foldState n =>
    split
    · next hstate =>
        obtain ⟨e, he⟩ := foldingOf_enter h.ring hp hmem.1 hstate hmem.2
        exact h.done hp (goesOn_pc rfl rfl) (.refl _) ⟨e, he.goto⟩
    · next hstate =>
        exact h.done hp (goesOn_foldFrom _) (.refl _)
          (seqMem_foldFrom (pending_skip h.ring hmem.2 fun _ => hstate))
  case foldCount n =>
    obtain ⟨e, he⟩ := hmem
    rw [he.holds.count]
    exact h.done hp (goesOn_foldInline ..) (.refl _) (seqMem_foldInline he)
  case foldAddr n len i =>
    obtain ⟨e, he, rfl, hi⟩ := hmem
    have hlt : i < e.2.length := hi.trans_le (inlineLen_le .cpp _)
    have hget : e.2[i]? = some e.2[i] := List.getElem?_eq_getElem hlt
    exact h.done hp (goesOn_pc rfl rfl) (.refl _)
      ⟨e, e.2[i], he.goto, rfl, hi, hget, (he.holds.inline i hi _ hget).1.symm⟩
  case foldVal n len i a =>
    obtain ⟨e, w, he, rfl, hi, hget, rfl⟩ := hmem
    exact h.done hp (goesOn_pc rfl rfl) (.refl _)
      ⟨e, he.goto, rfl, hi, by rw [(he.holds.inline i hi w hget).2]; exact hget⟩
  case foldMem n len i a v =>
    obtain ⟨e, he, rfl, hi, hget⟩ := hmem
    have hdrop : e.2.drop i = (a, v) :: e.2.drop (i + 1) := by
      obtain ⟨hlt, heq⟩ := List.getElem?_eq_some_iff.1 hget
      rw [List.drop_eq_getElem_cons hlt, heq]
    rw [hdrop] at he
    have he' := foldingOf_store h.ring hp (happart a rfl) he
    rw [foldStore_eq]
    exact h.done hp (goesOn_foldInline ..) ⟨rfl, rfl, rfl, rfl, rfl⟩ (seqMem_foldInline he')
  case foldOverflow n =>
    obtain ⟨e, he, hlong⟩ := hmem
    rw [he.holds.overflow hlong, Option.getD_some]
    exact h.done hp (goesOn_foldRestFrom ..) (.refl _) (seqMem_foldRestFrom he)
  case foldRest n rest =>
    obtain ⟨w, hw, rfl, rfl⟩ := map_pair_eq hacc
    obtain ⟨rest, rfl⟩ := List.head?_eq_some_iff.1 hw
    obtain ⟨e, he⟩ := hmem
    have he' := foldingOf_store h.ring hp (happart w.1 rfl) he
    rw [foldStore_eq]
    exact h.done hp (goesOn_foldRestFrom ..) ⟨rfl, rfl, rfl, rfl, rfl⟩ (seqMem_foldRestFrom he')
  case storeWm =>
    exact h.done hp (goesOn_pc rfl rfl) ⟨rfl, rfl, rfl, rfl, rfl⟩ hmem
  case clear i =>
    split
    · exact h.done hp (goesOn_pc rfl rfl) ⟨rfl, rfl, rfl, rfl, rfl⟩ hmem
    · refine h.done hp (goesOn_dirtyFrom _) ⟨rfl, rfl, rfl, rfl, rfl⟩ ?_
      unfold Tx.dirtyFrom
      split
      · exact hmem
      · exact hmem
  case dirtyFirst rest =>
    obtain ⟨w, hw, rfl, rfl⟩ := map_pair_eq hacc
    exact h.done hp (goesOn_pc rfl rfl) ⟨rfl, rfl, rfl, rfl, rfl⟩ hmem
  case dirtySecond rest =>
    obtain ⟨w, hw, rfl, rfl⟩ := map_pair_eq hacc
    refine h.done hp (goesOn_dirtyFrom _) ⟨rfl, rfl, rfl, rfl, rfl⟩ ?_
    unfold Tx.dirtyFrom
    split
    · exact hmem
    · exact hmem
  case resolve a k r => cases k <;> simp [hpc, Pc.phase] at hp
  all_goals simp [hpc, Pc.phase] at hp

omit hacc in
theorem SeqInv.rest {p : Pc} (hpc : x.pc = p) (hp : p.phase.holding = false) :
    σ.mem = value m₀ σ.pubs := by
  subst hpc
  obtain ⟨hd, hd'⟩ := ne_of_not_holding hp
  exact (seqMem_iff hd hd').1 h.memory

theorem seq_access_lock (hpc : x.pc = .lock) : SeqInv m₀ σ' x' := by
  have hp : x.pc.phase = .queue := by rw [hpc]; rfl
  have hmem : σ.mem = value m₀ σ.pubs := h.rest hpc rfl
  unfold access at hacc
  rw [hpc] at hacc
  have hacc := Option.some.inj hacc
  unfold acquire at hacc
  by_cases hfree : σ.gCommitLock = true
  · rw [if_pos hfree] at hacc
    obtain ⟨rfl, rfl⟩ := Prod.mk.inj hacc
    exact h
  · rw [if_neg hfree] at hacc
    obtain ⟨rfl, rfl⟩ := Prod.mk.inj hacc
    obtain ⟨p, heq, hq, hpub⟩ := validateFrom_eq .cpp x x.readSet
    have hempty : σ.history (σ.turn + 1) = none := h.left.later _ (Nat.lt_succ_self _)
    have hmem' : SeqMem m₀ { σ with gCommitLock := true, holder := some t, turn := σ.turn + 1 }
        (x.validateFrom .cpp x.readSet) := by
      apply seqMem_validateFrom
      exact hmem
    rw [heq] at hmem' ⊢
    refine ⟨h.ring.goto rfl rfl rfl (by rw [hp]; rfl) (.inl ?_) (hpub _) fun hd => ?_,
      hmem', ⟨?_, fun n hn => ?_, fun _ => ⟨Nat.succ_pos _, hempty⟩⟩,
      h.buffering.goto rfl rfl rfl (.inl (reading_of_decide hq))⟩
    · rw [live_of_decide hq]
      simp [Tx.live, hp]
    · cases hq.symm.trans hd
    · exact (memAt_succ_of_none hempty).trans h.left.leaves
    · exact h.left.later n ((Nat.lt_succ_self _).trans hn)

theorem seq_access (happart : ∀ a ∈ x.pc.foldTarget, x.writeSet.lookup a = none) :
    SeqInv m₀ σ' x' := by
  have hacc' := hacc
  unfold access at hacc
  cases hpc : x.pc
  all_goals rw [hpc] at hacc
  all_goals try obtain ⟨rfl, rfl⟩ := pair_eq hacc
  case out =>
    cases hacc
  case beginMark =>
    have hp : x.pc.phase = .mark := by rw [hpc]; rfl
    exact h.abort (by simp [Tx.live, hp]) (by rw [hp]; rfl) rfl (.inr rfl) (h.rest hpc rfl)
      (h.buffering.goto rfl rfl rfl (.inl rfl))
  case claim =>
    exact ⟨h.ring.claim (by rw [hpc]; rfl), h.rest hpc rfl,
      h.left.goto rfl rfl rfl (by simp [Pc.phase]), h.buffering.goto rfl rfl rfl (.inl rfl)⟩
  case beginTag n =>
    exact ⟨h.ring.storeTag (by rw [hpc]; rfl), h.rest hpc rfl,
      h.left.goto rfl rfl rfl (by simp [Pc.phase]), h.buffering.goto rfl rfl rfl (.inl rfl)⟩
  case beginState n =>
    have hp : x.pc.phase = .start n := by rw [hpc]; rfl
    have hn := live_of_start hp
    refine ⟨h.ring.setEntry hn (fun k hk => ?_) (.inl rfl) (fun hd => by cases hd)
      (fun hc => by cases hc) (fun _ => h.ring.tag n hn (by simp [hp])) (fun _ => rfl) trivial,
      h.rest hpc rfl, h.left.goto rfl rfl rfl (fun hd => by cases hd), .idle rfl rfl rfl rfl⟩
    rw [hp] at hk
    exact (Option.some.inj hk).symm
  case waitState n =>
    have hp : x.pc.phase = .wait n := by rw [hpc]; rfl
    split
    · exact h.pass hpc rfl rfl rfl rfl (.inl rfl)
    · exact h.waits hp rfl rfl (by simp [Tx.live, hp]) x.win
  case waitTag n =>
    have hp : x.pc.phase = .check n := by rw [hpc]; rfl
    split
    · exact h.pass hpc rfl rfl rfl rfl (.inl rfl)
    · exact h.waits hp rfl rfl (by simp [Tx.live, hp]) x.win
  case lock => exact seq_access_lock h hacc' hpc
  case conflictState =>
    have hp : x.pc.phase = .retreat := by rw [hpc]; rfl
    exact h.abort (by simp [Tx.live, hp]) (by rw [hp]; rfl) rfl (.inl rfl) (h.rest hpc rfl)
      (.idle rfl rfl rfl rfl)
  case resolve a k r =>
    cases k with
    | read => exact seq_access_run h hacc' (by rw [hpc]; rfl)
    | validate observed rest => exact seq_access_decide h hacc' (by rw [hpc]; rfl)
  case body | bloomFirst | bloomSecond | readMem | commitWm =>
    exact seq_access_run h hacc' (by rw [hpc]; rfl)
  case conflictRelease | resetCount | readOnlyState | pubAddr | pubVal | pubOverflow | pubCount
      | pubMem | pubState =>
    exact seq_access_decide h hacc' (by rw [hpc]; rfl)
  case readOnlyRelease | pubIndex | dueWm | foldTag | foldState | foldCount | foldAddr | foldVal
      | foldMem | foldOverflow | foldRest | storeWm | clear | dirtyFirst | dirtySecond | release =>
    exact seq_access_done h hacc' (by rw [hpc]; rfl) (hpc ▸ happart)

omit hacc in
theorem seq_next {c : TmCall CellAddr} (hnext : next .cpp t σ x c = some (σ', x'))
    (happart : ∀ a ∈ x.pc.foldTarget, x.writeSet.lookup a = none) : SeqInv m₀ σ' x' := by
  rcases next_eq_some hnext with ⟨rfl, hacc⟩ | ⟨rfl, hcall⟩
  · exact seq_access h hacc happart
  cases hcall with
  | weak hpc => exact h
  | begin hpc =>
      have hp : x.pc.phase = .idle := by rw [hpc]; rfl
      by_cases hactive : x.active = true
      · rw [if_pos hactive]
        exact h.pass hpc rfl rfl rfl rfl (.inl (if_pos hactive).symm)
      · rw [if_neg hactive]
        exact h.pass hpc rfl rfl rfl rfl (.inr rfl)
  | restart hpc hport | abort hpc hport => cases hport
  | read a hpc =>
      have hq : (x.readWord a).pc.phase = .run ∧ (x.readWord a).slot = x.slot := by
        unfold Tx.readWord
        split
        · exact ⟨by rw [hpc]; rfl, rfl⟩
        · exact ⟨rfl, rfl⟩
      exact h.run (by rw [hpc]; rfl) hq.1 hq.2 (h.buffering.readWord (by rw [hpc]; rfl) a)
  | write a v hpc =>
      have hp : x.pc.phase = .run := by rw [hpc]; rfl
      exact h.run hp hp rfl (h.buffering.writeWord (by rw [hpc]; rfl) a v)
  | commit hpc =>
      exact h.run (by rw [hpc]; rfl) rfl rfl (h.buffering.goto rfl rfl rfl (.inl rfl))

end Access

section Run

variable {T : Type} {m₀ : CellAddr → Word} {s : Threads (Shared T) Tx T}

/-- A thread that is neither in a transaction nor between two attempts of one. -/
def Resting (x : Tx) : Prop := x.pc.phase = .idle ∧ x.active = false

theorem SeqInv.swap {σ : Shared T} {x y : Tx} (h : SeqInv m₀ σ x) (hx : Resting x)
    (hy : Resting y) (hbuf : Buffering y) : SeqInv m₀ σ y := by
  have hlive : y.live = none := by simp [Tx.live, hy.1, hy.2]
  exact h.quiet hx.1 hy.1 rfl rfl rfl (.inr hlive) hbuf

structure SoloInv (m₀ : CellAddr → Word) (s : Threads (Shared T) Tx T) (x : Tx) : Prop where
  inv : SeqInv m₀ s.shared x
  own : Resting x ∨ ∃ t, s.tx t = x
  others : ∀ u, s.tx u = x ∨ Resting (s.tx u)
  buffering : ∀ u, Buffering (s.tx u)

/-- The transactions do not overlap, and the fold stays off the cells that the committer has
written. -/
def Sequential (s : Threads (Shared T) Tx T) (l : T × TmCall CellAddr)
    (s' : Threads (Shared T) Tx T) : Prop :=
  OneByOne s l s' ∧ FoldApart .cpp s l s'

variable [DecidableEq T]

instance [Fintype T] (s : Threads (Shared T) Tx T) (l : T × TmCall CellAddr)
    (s' : Threads (Shared T) Tx T) : Decidable (Sequential s l s') :=
  inferInstanceAs (Decidable (_ ∧ _))

omit [DecidableEq T] in
theorem soloInv_init (T : Type) (m₀ : CellAddr → Word) : SoloInv m₀ (init T m₀) {} where
  inv :=
    { ring :=
        { sorted := .nil
          nodup := fun _ he => by cases he
          below := fun _ he => by cases he
          fresh := fun _ hn => by cases hn
          published := fun _ he => by cases he
          committed := fun _ _ hc => by cases hc
          tag := fun _ hn => by cases hn
          progress := fun _ hn => by cases hn
          publishing := trivial
          head := fun hd => by cases hd }
      memory := rfl
      left := ⟨rfl, fun _ _ => rfl, fun hd => by cases hd⟩
      buffering := .idle rfl rfl rfl rfl }
  own := .inl ⟨rfl, rfl⟩
  others _ := .inl rfl
  buffering _ := .idle rfl rfl rfl rfl

theorem soloInv_run (hr : Run (step .cpp) Sequential (init T m₀) s) : ∃ x, SoloInv m₀ s x := by
  refine hr.induction_on (P := fun s => ∃ x, SoloInv m₀ s x) ⟨{}, soloInv_init T m₀⟩ ?_
  rintro s ⟨t, c⟩ s' - ⟨x, h⟩ hs ⟨hone, happart⟩
  obtain ⟨σ, x', hnext, rfl⟩ := Threads.step_eq_some hs
  have hone : ∀ u, u ≠ t → Resting (s.tx u) := hone
  -- The thread that moves is the one that the invariant is about, or it has been resting.
  have hinv : SeqInv m₀ s.shared (s.tx t) := by
    rcases h.others t with heq | hrest
    · exact heq ▸ h.inv
    · rcases h.own with hx | ⟨u, hu⟩
      · exact h.inv.swap hx hrest (h.buffering t)
      · by_cases hut : u = t
        · exact hut ▸ hu ▸ h.inv
        · exact h.inv.swap (hu ▸ hone u hut) hrest (h.buffering t)
  have hinv' := seq_next hinv hnext (happart rfl)
  refine ⟨x', hinv', .inr ⟨t, Threads.put_tx_self⟩, fun u => ?_, fun u => ?_⟩
  · by_cases hut : u = t
    · exact .inl (hut ▸ Threads.put_tx_self)
    · rw [Threads.put_tx_of_ne hut]
      exact .inr (hone u hut)
  · exact Threads.forall_put (P := fun _ y => Buffering y) hinv'.buffering
      (fun u _ => h.buffering u) u

end Run

section Fold

variable {s : Threads (Shared (Fin 1)) Tx (Fin 1)} {n : ℕ}

/-- One thread has written the first cell in slot 1; the slots from 2 to `n - 1` have written
nothing. -/
structure Padded (s : Threads (Shared (Fin 1)) Tx (Fin 1)) (n : ℕ) : Prop where
  tx : s.tx 0 = Tx.finish (some true)
  gNext : s.shared.gNext = n
  gWm : s.shared.gWm = 0
  lock : s.shared.gCommitLock = false
  le : 2 ≤ n
  free : (s.shared.entry 0).state = .free
  tag : (s.shared.entry 1).tag = 1
  state : (s.shared.entry 1).state = .committed
  count : (s.shared.entry 1).wsCount = 1
  addr : (s.shared.entry 1).wsAddr 0 = firstCell
  val : (s.shared.entry 1).wsVal 0 = 1
  rest : ∀ k, 2 ≤ k → k < n →
    (s.shared.entry k).state = .committed ∧ (s.shared.entry k).wsCount = 0

theorem padded_two : ∃ s, Run (step .cpp) anyStep (init (Fin 1) fun _ => 0) s ∧ Padded s 2 := by
  obtain ⟨s, hs, hp⟩ : ∃ s, exec (step .cpp) anyStep (init (Fin 1) fun _ => 0)
      (begins 0 ++ [(0, .write firstCell 1), (0, .commit)] ++ taus 0 14) = some s ∧ Padded s 2 :=
    ⟨_, rfl, rfl, rfl, rfl, rfl, le_rfl, rfl, rfl, rfl, rfl, rfl, rfl, fun k _ _ => by omega⟩
  exact ⟨s, run_of_exec hs, hp⟩

def Padded.begun (σ : Shared (Fin 1)) (n : ℕ) : Shared (Fin 1) :=
  ({ σ with gNext := n + 1 }.setEntry n fun e => { e with tag := tagOf .cpp n }).setEntry n
    fun e => { e with state := .progress }

theorem Padded.begin (h : Padded s n) :
    Run (step .cpp) anyStep s (s.put 0 (Padded.begun s.shared n) (Tx.begin n)) := by
  have hself : Run (step .cpp) anyStep s (s.put 0 s.shared (Tx.finish (some true))) := by
    rw [← h.tx, Threads.put_self]
    exact .refl
  have hreach : Reaches (alone .cpp (0 : Fin 1)) (s.shared,
      { pc := .claim, committed := some true })
      (Padded.begun s.shared s.shared.gNext, Tx.begin s.shared.gNext) := .of_iterate 3 rfl
  rw [h.gNext] at hreach
  exact run_alone (run_call .begin hself rfl) hreach

theorem Padded.mod_ne {n k : ℕ} (hk : k < n) (hn : n < kLogSlots) :
    k % kLogSlots ≠ n % kLogSlots := by
  rw [Nat.mod_eq_of_lt (hk.trans hn), Nat.mod_eq_of_lt hn]
  exact hk.ne

theorem Padded.entry_begun {n k : ℕ} (hk : k < n) (hn : n < kLogSlots) :
    (Padded.begun s.shared n).entry k = s.shared.entry k := by
  have hne := Padded.mod_ne hk hn
  exact (Shared.entry_setEntry_of_ne hne).trans (Shared.entry_setEntry_of_ne hne)

theorem Padded.wait (h : Padded s n) (hn : n < kLogSlots) (x : Tx) (hslot : x.slot = n) :
    Reaches (alone .cpp (0 : Fin 1)) (Padded.begun s.shared n, { x with pc := .commitWm })
      (Padded.begun s.shared n, { x with pc := .lock, win := 0 }) := by
  have hreach : Reaches (alone .cpp (0 : Fin 1))
      (Padded.begun s.shared n, { x with pc := .commitWm })
      (Padded.begun s.shared n, { x with pc := .lock, win := s.shared.gWm }) := by
    refine reaches_lock fun k _ hk => ?_
    have hk : k < n := hslot ▸ hk
    rw [Padded.entry_begun hk hn]
    intro hprogress
    rcases Nat.lt_or_ge k 2 with hlt | hge
    · obtain rfl | rfl : k = 0 ∨ k = 1 := by omega
      · cases h.free.symm.trans hprogress
      · cases h.state.symm.trans hprogress
    · cases (h.rest k hge hk).1.symm.trans hprogress
  rwa [h.gWm] at hreach

theorem Padded.again (h : Padded s n) (hn : n < kLogSlots) :
    ∃ s', Run (step .cpp) anyStep s s' ∧ Padded s' (n + 1) := by
  have hle := h.le
  obtain ⟨σ, hcommit, hgNext, hgWm, hlock, hstate, hcount, hother⟩ :=
    reaches_empty (t := (0 : Fin 1)) (σ := Padded.begun s.shared n)
      (x := { Tx.begin n with win := 0 }) h.lock rfl rfl
  have hentry : ∀ k, k < n → σ.entry k = s.shared.entry k := fun k hk =>
    (hother k (Padded.mod_ne hk hn)).trans (Padded.entry_begun hk hn)
  refine ⟨_, run_alone (run_call .commit h.begin rfl) ((h.wait hn _ rfl).trans hcommit), ?_⟩
  refine
    { tx := Threads.put_tx_self
      gNext := hgNext
      gWm := hgWm.trans h.gWm
      lock := hlock
      le := by omega
      free := by rw [Threads.put_shared, hentry 0 (by omega)]; exact h.free
      tag := by rw [Threads.put_shared, hentry 1 (by omega)]; exact h.tag
      state := by rw [Threads.put_shared, hentry 1 (by omega)]; exact h.state
      count := by rw [Threads.put_shared, hentry 1 (by omega)]; exact h.count
      addr := by rw [Threads.put_shared, hentry 1 (by omega)]; exact h.addr
      val := by rw [Threads.put_shared, hentry 1 (by omega)]; exact h.val
      rest := fun k hk hlt => ?_ }
  by_cases hkn : k = n
  · subst hkn
    exact ⟨hstate, hcount⟩
  · rw [Threads.put_shared, hentry k (by omega)]
    exact h.rest k hk (by omega)

theorem padded_of_le (k : ℕ) (hk : k + 2 ≤ kLogSlots) :
    ∃ s, Run (step .cpp) anyStep (init (Fin 1) fun _ => 0) s ∧ Padded s (2 + k) := by
  induction k with
  | zero => exact padded_two
  | succ k ih =>
      obtain ⟨s, hs, hp⟩ := ih (by omega)
      obtain ⟨s', hs', hp'⟩ := hp.again (by omega)
      exact ⟨s', hs.trans hs', hp'⟩

/-- The first cell is written again, by a commit that folds the log: memory is left with the
value of slot 1. -/
theorem Padded.fold (h : Padded s n) (hdue : kReclaimThreshold < n) (hn : n < kLogSlots) :
    ∃ s', Run (step .cpp) anyStep s s' ∧ s'.tx 0 = Tx.finish (some true) ∧
      s'.shared.mem firstCell = 1 ∧
      memAt (fun _ => 0) s'.shared.history s'.shared.turn firstCell = 2 := by
  let x : Tx := { slot := n, active := true, writeSet := [(firstCell, 2)],
                  ops := [.write firstCell 2] }
  have hcall : Run (step .cpp) anyStep s
      (s.put 0 (Padded.begun s.shared n) { x with pc := .commitWm }) :=
    run_call .commit (run_call (.write firstCell 2) h.begin rfl) rfl
  obtain ⟨σ₁, hpub, -, hgWm, hturn, hhist, -, -, -, hother⟩ :=
    reaches_publish (t := (0 : Fin 1)) (σ := Padded.begun s.shared n) (x := x)
      h.lock rfl rfl
  have hentry : ∀ k, k < n → σ₁.entry k = s.shared.entry k := fun k hk =>
    (hother k (Padded.mod_ne hk hn)).trans (Padded.entry_begun hk hn)
  have hdueWm : Reaches (alone .cpp (0 : Fin 1)) (σ₁, { x with pc := .dueWm })
      (σ₁, x.foldFrom 0) := by
    refine .tail .refl ?_
    have hlong : x.due σ₁.gWm = true := by
      rw [hgWm]
      show x.due s.shared.gWm = true
      rw [h.gWm]
      exact decide_eq_true (.inr hdue)
    show some (σ₁, if x.due σ₁.gWm then x.foldFrom 0 else _) = _
    rw [if_pos hlong]
  have hle := h.le
  have hzero : Reaches (alone .cpp (0 : Fin 1)) (σ₁, x.foldFrom 0) (σ₁, x.foldFrom 1) := by
    refine reaches_foldFrom (by omega) (hle.trans' (by omega)) fun k _ hk => .inl ?_
    obtain rfl : k = 0 := by omega
    rw [hentry 0 (by omega), h.free]
    intro heq
    cases heq
  let σ₂ : Shared (Fin 1) := { σ₁ with mem := Function.update σ₁.mem firstCell 1 }
  have hfirst : Reaches (alone .cpp (0 : Fin 1)) (σ₁, x.foldFrom 1) (σ₂, x.foldFrom 2) := by
    refine reaches_foldOne hle ?_ ?_ ?_ ?_ ?_ rfl
    all_goals rw [hentry 1 (by omega)]
    · exact h.tag
    · exact h.state
    · exact h.count
    · exact h.addr
    · exact h.val
  have hrest : Reaches (alone .cpp (0 : Fin 1)) (σ₂, x.foldFrom 2) (σ₂, x.foldFrom n) := by
    refine reaches_foldFrom hle le_rfl fun k hk hlt => .inr ?_
    exact (congrArg LogEntry.wsCount (hentry k hlt)).trans (h.rest k hk hlt).2
  have hstore : Reaches (alone .cpp (0 : Fin 1)) (σ₂, x.foldFrom n)
      ({ σ₂ with gWm := n }, { x with pc := .clear 0 }) := by
    rw [Tx.foldFrom, if_neg (lt_irrefl n)]
    exact .tail .refl rfl
  obtain ⟨d, hclear⟩ : ∃ d, Reaches (alone .cpp (0 : Fin 1))
      ({ σ₂ with gWm := n }, { x with pc := .clear 0 })
      ({ σ₂ with gWm := n, gDirty := d }, x.dirtyFrom x.writeSet) := reaches_clear (by decide)
  have hdone : Reaches (alone .cpp (0 : Fin 1))
      ({ σ₂ with gWm := n, gDirty := d }, x.dirtyFrom x.writeSet) _ := .of_iterate 3 rfl
  refine ⟨_, run_alone hcall (((((((((h.wait hn x rfl).trans hpub).trans hdueWm).trans
    hzero).trans hfirst).trans hrest).trans hstore).trans hclear).trans hdone),
    Threads.put_tx_self, Function.update_self firstCell 1 σ₁.mem, ?_⟩
  show memAt (fun _ => 0) σ₁.history σ₁.turn firstCell = 2
  rw [hhist, hturn, memAt_pred_of_some (enter_self _ _ _) (Nat.succ_pos _)]
  exact Function.update_self _ _ _

end Fold

end MVLog
