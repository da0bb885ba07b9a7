import ClangTM.MVLog.Slots

/-!
# The steps of the multi-version log keep the slots in order

A commit waits for the slots before its own by looking at their log entries. A slot that has
been claimed, and whose entry is not marked as in progress yet, looks resolved; and an entry
that a later slot has taken over says nothing about the earlier slot. `Orderly` is the
condition that neither happens: nobody waits for a slot that is still starting, and nobody
tags an entry that belongs to a slot that is kept. In orderly runs `SlotInv` holds.
-/

namespace MVLog

open Serial Transition Ticket

section Condition

variable {T : Type}

/-- A thread in this phase does not look at the entry of a slot that is still starting, and
does not take over the entry of a slot that is kept. -/
def OrderlyAt (s : Threads (Shared T) Tx T) : Phase → Prop
  | .wait n => ¬Starting s n
  | .tag n => Fits s n
  | _ => True

def Orderly (s : Threads (Shared T) Tx T) (l : T × TmCall CellAddr)
    (_ : Threads (Shared T) Tx T) : Prop :=
  OrderlyAt s (s.tx l.1).pc.phase

instance [Fintype T] (s : Threads (Shared T) Tx T) (n : ℕ) : Decidable (Starting s n) :=
  inferInstanceAs (Decidable (∃ _, _))

instance [Fintype T] (s : Threads (Shared T) Tx T) (n : ℕ) : Decidable (Fits s n) :=
  inferInstanceAs (Decidable (_ ∧ ∀ _, _))

instance [Fintype T] (s : Threads (Shared T) Tx T) (p : Phase) : Decidable (OrderlyAt s p) :=
  match p with
  | .wait n => inferInstanceAs (Decidable (¬Starting s n))
  | .tag n => inferInstanceAs (Decidable (Fits s n))
  | .idle | .mark | .claim | .start _ | .run | .check _ | .queue | .decide | .retreat | .done =>
      inferInstanceAs (Decidable True)

instance [Fintype T] (s : Threads (Shared T) Tx T) (l : T × TmCall CellAddr)
    (s' : Threads (Shared T) Tx T) : Decidable (Orderly s l s') :=
  inferInstanceAs (Decidable (OrderlyAt s (s.tx l.1).pc.phase))

end Condition

structure SameSlots {T : Type} (σ σ' : Shared T) : Prop where
  gNext : σ'.gNext = σ.gNext
  gWm : σ'.gWm = σ.gWm
  gLog : σ'.gLog = σ.gLog
  pubs : σ'.pubs = σ.pubs
  gCommitLock : σ'.gCommitLock = σ.gCommitLock
  holder : σ'.holder = σ.holder

theorem SameSlots.refl {T : Type} (σ : Shared T) : SameSlots σ σ := ⟨rfl, rfl, rfl, rfl, rfl, rfl⟩

structure LockStep {T : Type} (σ σ' : Shared T) (t : T) (q : Phase) : Prop where
  holder : σ'.holder = some t ↔ q.holding = true
  others : ∀ u, u ≠ t → (σ'.holder = some u ↔ σ.holder = some u)
  lock : σ'.gCommitLock = σ'.holder.isSome

theorem notTag_of_begins {p : Phase} (h : p.begins = none) (n : ℕ) : p ≠ .tag n := by
  rintro rfl
  cases h

theorem notStart_of_begins {p : Phase} (h : p.begins = none) (n : ℕ) : p ≠ .start n := by
  rintro rfl
  cases h

section Sets

variable {x : Tx}

/-- The entries that are published and still to be put in the index. -/
def Pc.unindexed : Pc → List (CellAddr × Word)
  | .pubIndex rest => rest
  | _ => []

structure GoesOn (x x' : Tx) : Prop where
  phase : x'.pc.phase = .done
  unindexed : x'.pc.unindexed = []
  same : ∃ p, x' = { x with pc := p }

theorem goesOn_pc {p : Pc} (hphase : p.phase = .done) (hun : p.unindexed = []) :
    GoesOn x { x with pc := p } := ⟨hphase, hun, p, rfl⟩

theorem goesOn_foldFrom (n : ℕ) : GoesOn x (x.foldFrom n) := by
  unfold Tx.foldFrom
  split
  · exact goesOn_pc rfl rfl
  · exact goesOn_pc rfl rfl

theorem goesOn_dirtyFrom (rest : List (CellAddr × Word)) : GoesOn x (x.dirtyFrom rest) := by
  unfold Tx.dirtyFrom
  split
  · exact goesOn_pc rfl rfl
  · exact goesOn_pc rfl rfl

theorem goesOn_foldInline (port : Port) (n len i : ℕ) : GoesOn x (x.foldInline port n len i) := by
  unfold Tx.foldInline
  rw [nextInline_eq]
  split
  · exact goesOn_pc rfl rfl
  · split
    · exact goesOn_pc rfl rfl
    · exact goesOn_foldFrom _

theorem goesOn_foldRestFrom (n : ℕ) (rest : List (CellAddr × Word)) :
    GoesOn x (x.foldRestFrom n rest) := by
  unfold Tx.foldRestFrom
  split
  · exact goesOn_foldFrom _
  · exact goesOn_pc rfl rfl

end Sets

section Calls

inductive Called (port : Port) (x : Tx) : Tx → Prop
  | weak (hpc : x.pc = .lock) : Called port x x
  | begin (hpc : x.pc = .out) :
      Called port x { x with pc := if x.active then .beginMark else .claim }
  | restart (hpc : x.pc = .body) (hport : port = .rust) : Called port x { x with pc := .beginMark }
  | read (a : CellAddr) (hpc : x.pc = .body) : Called port x (x.readWord a)
  | write (a : CellAddr) (v : Word) (hpc : x.pc = .body) : Called port x (x.writeWord a v)
  | commit (hpc : x.pc = .body) : Called port x { x with pc := .commitWm }
  | abort (hpc : x.pc = .body) (hport : port = .rust) : Called port x {}

theorem next_eq_some {T : Type} {port : Port} {t : T} {σ σ' : Shared T} {x x' : Tx}
    {c : TmCall CellAddr} (hnext : next port t σ x c = some (σ', x')) :
    c = .tau ∧ access port t σ x = some (σ', x') ∨ σ' = σ ∧ Called port x x' := by
  cases c with
  | tau => exact .inl ⟨rfl, hnext⟩
  | weak | begin | read | write | commit | abort =>
      unfold next at hnext
      dsimp only at hnext
      split at hnext <;> cases hnext
      all_goals next hpc => exact .inr ⟨rfl, by constructor <;> first | exact hpc | rfl⟩

end Calls

section Steps

variable {T : Type} [DecidableEq T] {port : Port} {s : Threads (Shared T) Tx T} {t : T}
  {σ : Shared T} {x : Tx}

theorem book_keep (hnext : σ.gNext = s.shared.gNext) (hpubs : σ.pubs = s.shared.pubs)
    (hlive : x.live = (s.tx t).live ∨ x.live = none) :
    (book s).Move t (book (s.put t σ x)) := by
  refine .keep (fun u hu => ?_) ?_ hnext (by rw [book, Threads.put_shared, hpubs]; rfl)
  · show ((s.put t σ x).tx u).live = _
    rw [Threads.put_tx_of_ne hu]
    rfl
  · show ((s.put t σ x).tx t).live = _ ∨ ((s.put t σ x).tx t).live = _
    rw [Threads.put_tx_self]
    exact hlive

variable (h : SlotInv port s)
include h

omit [DecidableEq T] in
theorem notMem_pubs {n : ℕ} (hn : (s.tx t).live = some n) (ws : List (CellAddr × Word)) :
    (n, ws) ∉ s.shared.pubs := by
  intro hmem
  have hle := (h.book.served n (List.mem_map_of_mem hmem)).le (t := t) hn
  omega

omit [DecidableEq T] in
/-- A slot that is not live any more, its entry being neither committed nor changed. -/
theorem closed_of_live {n : ℕ} {e : LogEntry} (hn : (s.tx t).live = some n)
    (htag : e.tag = tagOf port n) (hstate : e.state ≠ .committed) :
    Closed port e n s.shared.pubs :=
  ⟨htag, fun ws hws => absurd hws (notMem_pubs h hn ws), fun _ => hstate⟩

omit [DecidableEq T] in
theorem SlotInv.lockStep {p q : Phase} (hp : (s.tx t).pc.phase = p)
    (hhold : q.holding = p.holding) (hlock : σ.gCommitLock = s.shared.gCommitLock)
    (hholder : σ.holder = s.shared.holder) : LockStep s.shared σ t q where
  holder := by rw [hholder, hhold, ← hp]; exact h.holder t
  others u _ := by rw [hholder]
  lock := by rw [hlock, hholder, h.lock]

/-- A step that leaves the slots, the watermark and what is published as they are, outside the
beginning of a transaction. -/
theorem good_of {p q : Phase} (hp : (s.tx t).pc.phase = p) (hq : x.pc.phase = q)
    (hpb : p.begins = none) (hqb : q.begins = none) (hnext : σ.gNext = s.shared.gNext)
    (hwm : σ.gWm = s.shared.gWm) (hpubs : σ.pubs = s.shared.pubs)
    (hlock : LockStep s.shared σ t q) (hlive : x.live = (s.tx t).live ∨ x.live = none)
    (hframe : ∀ n < s.shared.gNext, Tagged s n → Kept s n → (s.tx t).live ≠ some n →
      σ.entry n = s.shared.entry n)
    (hown : ∀ n, (s.tx t).live = some n → (σ.entry n).tag = (s.shared.entry n).tag ∧
      (σ.entry n).state ≠ .committed ∧ (x.live = some n → (σ.entry n).state = .progress))
    (hdone : q = .done → p = .done ∧ x.slot = (s.tx t).slot)
    (hwin : q.committing = true →
      (p.committing = true ∧ x.win = (s.tx t).win) ∨ x.win = s.shared.gWm)
    (hbegun : ∀ n, q = .check n → n < s.shared.gNext ∧ ¬Starting s n)
    (hwaited : ∀ n, x.waited = some n → (book s).Settled n)
    (hpub : x.Publishing port (σ.entry x.slot)) : Good port s t σ x := by
  subst hp hq
  have hmove : (book s).Move t (book (s.put t σ x)) := book_keep hnext hpubs hlive
  have hsame : ∀ n, x.live = some n → (s.tx t).live = some n := by
    intro n hn
    rcases hlive with heq | heq
    · exact heq ▸ hn
    · rw [heq] at hn
      cases hn
  have hnotTag := notTag_of_begins hpb
  have htag : ∀ n, (s.tx t).live = some n → (σ.entry n).tag = tagOf port n := fun n hn =>
    (hown n hn).1.trans ((h.tx t).own n hn (hnotTag n))
  exact
    { move := hmove
      holder := hlock.holder
      others := hlock.others
      lock := hlock.lock
      wm := hwm.ge
      wmFree := fun _ => hwm
      settled := hwm ▸ h.wm.move hmove
      wmSlot := fun hd => by rw [hwm, (hdone hd).2]; exact h.wmSlot t (hdone hd).1
      frame := hframe
      pubs := fun p _ => by rw [hpubs]
      claims := fun hne => absurd hnext hne
      starting := fun n hs => by rcases hs with hs | hs <;> rw [hs] at hqb <;> cases hqb
      tagged := fun n hn => absurd hn (hnotTag n)
      win := hwin
      closed := fun n hn _ => hpubs ▸ closed_of_live h hn (htag n hn) (hown n hn).2.1
      begun := hbegun
      tx := ⟨fun n hn _ => htag n (hsame n hn), fun n hn _ _ => (hown n (hsame n hn)).2.2 hn,
        fun n hn => (hwaited n hn).move hmove, hpub⟩ }

/-- Such a step that leaves the log as it is. -/
theorem good_quiet {p q : Phase} (hp : (s.tx t).pc.phase = p) (hq : x.pc.phase = q)
    (hpb : p.begins = none) (hqb : q.begins = none) (hnext : σ.gNext = s.shared.gNext)
    (hwm : σ.gWm = s.shared.gWm) (hpubs : σ.pubs = s.shared.pubs)
    (hlog : σ.gLog = s.shared.gLog) (hlock : LockStep s.shared σ t q)
    (hlive : x.live = (s.tx t).live ∨ x.live = none)
    (hdone : q = .done → p = .done ∧ x.slot = (s.tx t).slot)
    (hwin : q.committing = true →
      (p.committing = true ∧ x.win = (s.tx t).win) ∨ x.win = s.shared.gWm)
    (hbegun : ∀ n, q = .check n → n < s.shared.gNext ∧ ¬Starting s n)
    (hwaited : ∀ n, x.waited = some n → (book s).Settled n)
    (hpub : x.Publishing port (s.shared.entry x.slot)) : Good port s t σ x := by
  have hentry : σ.entry = s.shared.entry := by
    funext n
    rw [Shared.entry, hlog, Shared.entry]
  refine good_of h hp hq hpb hqb hnext hwm hpubs hlock hlive (fun n _ _ _ _ => by rw [hentry])
    (fun n hn => ?_) hdone hwin hbegun hwaited (hentry ▸ hpub)
  subst hp
  have hprogress := (h.tx t).progress n hn (notTag_of_begins hpb n) (notStart_of_begins hpb n)
  rw [hentry, hprogress]
  exact ⟨rfl, by simp, fun _ => rfl⟩

theorem good_same {p : Phase} (hp : (s.tx t).pc.phase = p) (hq : x.pc.phase = p)
    (hσ : SameSlots s.shared σ) (hslot : x.slot = (s.tx t).slot)
    (hactive : x.active = (s.tx t).active) (hwin : x.win = (s.tx t).win) (hb : p.begins = none)
    (hcheck : ∀ n, p ≠ .check n) (hpub : x.Publishing port (s.shared.entry x.slot)) :
    Good port s t σ x := by
  have hlive : x.live = (s.tx t).live := by simp [Tx.live, hp, hq, hslot, hactive]
  have hwaited : x.waited = (s.tx t).waited := by simp [Tx.waited, hp, hq, hslot]
  exact good_quiet h hp hq hb hb hσ.gNext hσ.gWm hσ.pubs hσ.gLog
    (h.lockStep hp rfl hσ.gCommitLock hσ.holder) (.inl hlive) (fun hd => ⟨hd, hslot⟩)
    (fun hc => .inl ⟨hc, hwin⟩) (fun n hn => absurd hn (hcheck n))
    (fun n hn => (h.tx t).waited n (hwaited ▸ hn)) hpub

/-- A store to the log entry of the thread's slot, before the transaction publishes. -/
theorem good_store {f : LogEntry → LogEntry} (hp : (s.tx t).pc.phase = .decide)
    (hq : x.pc.phase = .decide) (hslot : x.slot = (s.tx t).slot) (hwin : x.win = (s.tx t).win)
    (htag : ∀ e, (f e).tag = e.tag) (hstate : ∀ e, (f e).state = e.state)
    (hpub : x.Publishing port (f (s.shared.entry x.slot))) :
    Good port s t (s.shared.setEntry (s.tx t).slot f) x := by
  have hn := live_of_decide hp
  have hlive : x.live = (s.tx t).live := by rw [hn, live_of_decide hq, hslot]
  have hfits := h.fits_of_live hn (by simp [hp])
  have hentry := Shared.entry_setEntry s.shared (s.tx t).slot f
  refine good_of h hp hq rfl rfl rfl rfl rfl (h.lockStep hp rfl rfl rfl) (.inl hlive)
    (fun n => h.entry_frame hn hfits f) (fun n hx => ?_) (by simp)
    (fun _ => .inl ⟨rfl, hwin⟩) (by simp) (fun n hx => (h.tx t).waited n ?_) ?_
  · obtain rfl : (s.tx t).slot = n := Option.some.inj (hn.symm.trans hx)
    rw [hentry, htag, hstate, (h.tx t).progress _ hn (by simp [hp]) (by simp [hp])]
    exact ⟨rfl, by simp, fun _ => rfl⟩
  · rw [← hx]
    simp [Tx.waited, hp, hq, hslot]
  · rw [hslot, hentry, ← hslot]
    exact hpub

theorem good_abort {p q : Phase} (hp : (s.tx t).pc.phase = p)
    (hn : (s.tx t).live = some (s.tx t).slot) (hpb : p.begins = none) (hphold : p.holding = false)
    (hlive : x.live = none) (hq : x.pc.phase = q) (hqs : q = .idle ∨ q = .claim) :
    Good port s t (s.shared.setEntry (s.tx t).slot fun e => { e with state := .aborted }) x := by
  have hfits := h.fits_of_live hn (hp ▸ notTag_of_begins hpb _)
  have hentry := Shared.entry_setEntry s.shared (s.tx t).slot fun e => { e with state := .aborted }
  refine good_of h hp hq hpb (by rcases hqs with rfl | rfl <;> rfl) rfl rfl rfl
    (h.lockStep hp (by rw [hphold]; rcases hqs with rfl | rfl <;> rfl) rfl rfl) (.inr hlive)
    (fun n => h.entry_frame hn hfits _) (fun n hx => ?_) ?_ ?_ ?_ (fun n hx => ?_)
    (publishing_of_ne ?_ _)
  · obtain rfl : (s.tx t).slot = n := Option.some.inj (hn.symm.trans hx)
    rw [hentry, hlive]
    exact ⟨rfl, by simp, by simp⟩
  all_goals rcases hqs with rfl | rfl <;> simp_all [Phase.committing, Tx.waited]

theorem good_drop (hp : (s.tx t).pc.phase = .run) : Good port s t s.shared {} :=
  good_quiet (q := .idle) h hp rfl rfl rfl rfl rfl rfl rfl (h.lockStep hp rfl rfl rfl) (.inr rfl)
    (by simp) (by simp [Phase.committing]) (by simp) (fun n hx => by cases hx) trivial

theorem good_claim (hp : (s.tx t).pc.phase = .claim) :
    Good port s t { s.shared with gNext := s.shared.gNext + 1 }
      { s.tx t with pc := .beginTag s.shared.gNext } := by
  have hmove : (book s).Move t (book (s.put t { s.shared with gNext := s.shared.gNext + 1 }
      { s.tx t with pc := .beginTag s.shared.gNext })) := by
    refine .claim (fun u hu => ?_) ?_ rfl rfl
    · show ((s.put t _ _).tx u).live = _
      rw [Threads.put_tx_of_ne hu]
      rfl
    · show ((s.put t _ _).tx t).live = _
      rw [Threads.put_tx_self]
      rfl
  refine
    { move := hmove
      holder := (h.holder t).trans (by rw [hp]; rfl)
      others := fun _ _ => .rfl
      lock := h.lock
      wm := le_rfl
      wmFree := fun _ => rfl
      settled := h.wm.move hmove
      wmSlot := fun hd => by cases hd
      frame := fun _ _ _ _ _ => rfl
      pubs := fun _ _ => .rfl
      claims := fun _ => rfl
      starting := fun n hs => ?_
      tagged := fun n hs => by rw [hp] at hs; cases hs
      win := fun hc => by cases hc
      closed := fun n hx _ => ?_
      begun := fun n hs => by cases hs
      tx := ⟨fun n hx hne => ?_, fun n hx hne => ?_, fun n hx => (by cases hx), trivial⟩ }
  · rcases hs with hs | hs
    · exact .inr (Phase.tag.inj hs).symm
    · cases hs
  · simp [Tx.live, hp] at hx
  · exact absurd (congrArg Phase.tag (Option.some.inj hx)) hne
  · exact absurd (congrArg Phase.tag (Option.some.inj hx)) hne

theorem good_tag {n : ℕ} (hp : (s.tx t).pc.phase = .tag n) (hfits : Fits s n) :
    Good port s t (s.shared.setEntry n fun e => { e with tag := tagOf port n })
      { s.tx t with pc := .beginState n } := by
  have hn := live_of_tag hp
  have hmove : (book s).Move t (book (s.put t
      (s.shared.setEntry n fun e => { e with tag := tagOf port n })
      { s.tx t with pc := .beginState n })) := book_keep rfl rfl (.inl hn.symm)
  refine
    { move := hmove
      holder := (h.holder t).trans (by rw [hp]; rfl)
      others := fun _ _ => .rfl
      lock := h.lock
      wm := le_rfl
      wmFree := fun _ => rfl
      settled := h.wm.move hmove
      wmSlot := fun hd => by cases hd
      frame := fun m hlt htagged hkept hne => h.entry_frame hn hfits _ hlt htagged hkept hne
      pubs := fun _ _ => .rfl
      claims := fun hne => absurd rfl hne
      starting := fun m hs => ?_
      tagged := fun m hs _ => ?_
      win := fun hc => by cases hc
      closed := fun m hx hne => absurd (hn.symm.trans hx) hne
      begun := fun m hs => by cases hs
      tx := ⟨fun m hx _ => ?_, fun m hx _ hne => ?_, fun m hx => (by cases hx), trivial⟩ }
  · rcases hs with hs | hs
    · cases hs
    · obtain rfl := Phase.start.inj hs
      exact .inl ⟨hn, .inl hp⟩
  · obtain rfl := Phase.tag.inj (hp.symm.trans hs)
    exact hfits
  · obtain rfl : n = m := Option.some.inj hx
    rw [Shared.entry_setEntry]
  · exact absurd (congrArg Phase.start (Option.some.inj hx)) hne

theorem good_start {n : ℕ} (hp : (s.tx t).pc.phase = .start n) :
    Good port s t (s.shared.setEntry n fun e => { e with state := .progress }) (Tx.begin n) := by
  have hn := live_of_start hp
  have hfits := h.fits_of_live hn (by simp [hp])
  have hmove : (book s).Move t (book (s.put t
      (s.shared.setEntry n fun e => { e with state := .progress }) (Tx.begin n))) :=
    book_keep rfl rfl (.inl hn.symm)
  have hentry := Shared.entry_setEntry s.shared n fun e => { e with state := .progress }
  refine
    { move := hmove
      holder := (h.holder t).trans (by rw [hp]; rfl)
      others := fun _ _ => .rfl
      lock := h.lock
      wm := le_rfl
      wmFree := fun _ => rfl
      settled := h.wm.move hmove
      wmSlot := fun hd => by cases hd
      frame := fun m hlt htagged hkept hne => h.entry_frame hn hfits _ hlt htagged hkept hne
      pubs := fun _ _ => .rfl
      claims := fun hne => absurd rfl hne
      starting := fun m hs => by rcases hs with hs | hs <;> cases hs
      tagged := fun m hs => by rw [hp] at hs; cases hs
      win := fun hc => by cases hc
      closed := fun m hx hne => absurd (hn.symm.trans hx) hne
      begun := fun m hs => by cases hs
      tx := ⟨fun m hx _ => ?_, fun m hx _ _ => ?_, fun m hx => (by cases hx), trivial⟩ }
  · obtain rfl : n = m := Option.some.inj hx
    rw [hentry]
    exact (h.tx t).own n hn (by simp [hp])
  · obtain rfl : n = m := Option.some.inj hx
    rw [hentry]

theorem good_take (hp : (s.tx t).pc.phase = .queue) (hfree : s.shared.gCommitLock = false)
    (hq : x.pc.phase = .decide) (hslot : x.slot = (s.tx t).slot) (hwin : x.win = (s.tx t).win)
    (hpub : ∀ e, x.Publishing port e) :
    Good port s t
      { s.shared with gCommitLock := true, holder := some t, turn := s.shared.turn + 1 } x := by
  have hlive : x.live = (s.tx t).live := by simp [Tx.live, hp, hq, hslot]
  have hnone : s.shared.holder = none := by
    have := h.lock
    rw [hfree] at this
    simpa using this.symm
  refine good_quiet h hp hq rfl rfl rfl rfl rfl rfl
    ⟨by simp [Phase.holding], fun u hu => by simp [hnone, hu.symm], rfl⟩ (.inl hlive) (by simp)
    (fun _ => .inl ⟨rfl, hwin⟩) (by simp) (fun n hx => (h.tx t).waited n ?_) (hpub _)
  rw [← hx]
  simp [Tx.waited, hp, hq, hslot]

theorem good_unlock {p q : Phase} (hp : (s.tx t).pc.phase = p) (hhold : p.holding = true)
    (hq : x.pc.phase = q) (hqhold : q.committing = false) (hqb : q.begins = none)
    (hlive : x.live = (s.tx t).live ∨ x.live = none) : Good port s t (unlock s.shared) x := by
  have hholder : s.shared.holder = some t := (h.holder t).2 (hp ▸ hhold)
  have hpb : p.begins = none := by cases p <;> simp_all [Phase.holding, Phase.begins]
  have hfree : q.holding = false := by cases q <;> simp_all [Phase.holding, Phase.committing]
  refine good_quiet h hp hq hpb hqb rfl rfl rfl rfl
    ⟨by simp [unlock, hfree], fun u hu => by simp [unlock, hholder, hu.symm], rfl⟩ hlive ?_
    (by simp [hqhold]) ?_ (fun n hx => ?_) (publishing_of_ne ?_ _)
  · rintro rfl
    cases hqhold
  · rintro n rfl
    cases hqhold
  · unfold Tx.waited at hx
    cases q <;> simp_all [Phase.committing]
  · rw [hq]
    rintro rfl
    cases hqhold

theorem good_publish (hp : (s.tx t).pc.phase = .decide)
    (hholds : Holds port (s.shared.entry (s.tx t).slot) (s.tx t).writeSet)
    (hq : x.pc.phase = .done) (hslot : x.slot = (s.tx t).slot) (hwin : x.win = (s.tx t).win) :
    Good port s t (publish s.shared (s.tx t)) x := by
  have hn := live_of_decide hp
  have hlive := live_of_done hq
  have hfits := h.fits_of_live hn (by simp [hp])
  have hsettled := (h.tx t).waited _ (waited_of_holding (x := s.tx t) (by rw [hp]; rfl))
  have hmove : (book s).Move t (book (s.put t (publish s.shared (s.tx t)) x)) := by
    refine .serve (s.tx t).slot (fun u hu => ?_) hn hsettled ?_ rfl rfl
    · show ((s.put t _ _).tx u).live = _
      rw [Threads.put_tx_of_ne hu]
      rfl
    · show ((s.put t _ _).tx t).live = _
      rw [Threads.put_tx_self]
      exact hlive
  have hentry : (publish s.shared (s.tx t)).entry (s.tx t).slot =
      { s.shared.entry (s.tx t).slot with state := .committed } :=
    Shared.entry_setEntry s.shared (s.tx t).slot fun e => { e with state := .committed }
  refine
    { move := hmove
      holder := by rw [hq]; exact (h.holder t).trans (by rw [hp]; rfl)
      others := fun _ _ => .rfl
      lock := h.lock
      wm := le_rfl
      wmFree := fun _ => rfl
      settled := h.wm.move hmove
      wmSlot := fun _ => hslot ▸ h.wm_le_live hn
      frame := fun n hlt htagged hkept hne =>
        h.entry_frame hn hfits (fun e => { e with state := .committed }) hlt htagged hkept hne
      pubs := fun p hne => ?_
      claims := fun hne => absurd rfl hne
      starting := fun n hs => by rw [hq] at hs; rcases hs with hs | hs <;> cases hs
      tagged := fun n hs => by rw [hp] at hs; cases hs
      win := fun _ => .inl ⟨by rw [hp]; rfl, hwin⟩
      closed := fun n hx _ => ?_
      begun := fun n hs => by rw [hq] at hs; cases hs
      tx := ⟨fun n hx => ?_, fun n hx => ?_, fun n hx => ?_, ?_⟩ }
  · have hne' : p ≠ ((s.tx t).slot, (s.tx t).writeSet) := by
      rintro rfl
      exact hne hn
    simp [publish, hne']
  · obtain rfl : (s.tx t).slot = n := Option.some.inj (hn.symm.trans hx)
    rw [hentry]
    refine ⟨(h.tx t).own _ hn (by simp [hp]), fun ws hws => ⟨rfl, ?_⟩, fun hno => ?_⟩
    · rcases List.mem_cons.1 hws with heq | hold
      · obtain rfl : ws = (s.tx t).writeSet := congrArg Prod.snd heq
        exact hholds.congr rfl rfl rfl rfl
      · exact absurd hold (notMem_pubs h hn ws)
    · exact absurd List.mem_cons_self (hno (s.tx t).writeSet)
  · rw [hlive] at hx
    cases hx
  · rw [hlive] at hx
    cases hx
  · rw [waited_of_holding (by rw [hq]; rfl), hslot] at hx
    obtain rfl := Option.some.inj hx
    exact hsettled.move hmove
  · exact publishing_of_ne (by rw [hq]; simp) _

theorem good_storeWm (hp : (s.tx t).pc.phase = .done) :
    Good port s t { s.shared with gWm := (s.tx t).slot } { s.tx t with pc := .clear 0 } := by
  have hlive := live_of_done hp
  have hwm := h.wmSlot t hp
  have hsettled := (h.tx t).waited _ (waited_of_holding (x := s.tx t) (by rw [hp]; rfl))
  have hmove : (book s).Move t (book (s.put t { s.shared with gWm := (s.tx t).slot }
      { s.tx t with pc := .clear 0 })) := book_keep rfl rfl (.inr rfl)
  refine
    { move := hmove
      holder := (h.holder t).trans (by rw [hp]; rfl)
      others := fun _ _ => .rfl
      lock := h.lock
      wm := hwm
      wmFree := fun hfree => by rw [hp] at hfree; cases hfree
      settled := hsettled.move hmove
      wmSlot := fun _ => le_rfl
      frame := fun _ _ _ _ _ => rfl
      pubs := fun _ _ => .rfl
      claims := fun hne => absurd rfl hne
      starting := fun n hs => by rcases hs with hs | hs <;> cases hs
      tagged := fun n hs => by rw [hp] at hs; cases hs
      win := fun _ => .inl ⟨by rw [hp]; rfl, rfl⟩
      closed := fun n hx => by rw [hlive] at hx; cases hx
      begun := fun n hs => by cases hs
      tx := ⟨fun n hx => (by cases hx), fun n hx => (by cases hx), fun n hx => ?_, trivial⟩ }
  obtain rfl := Option.some.inj hx
  exact hsettled.move hmove

theorem good_waitFrom {n : ℕ} (hlive : (s.tx t).live = some (s.tx t).slot)
    (hpb : (s.tx t).pc.phase.begins = none) (hphold : (s.tx t).pc.phase.holding = false)
    (hslot : x.slot = (s.tx t).slot)
    (hwin : ((s.tx t).pc.phase.committing = true ∧ x.win = (s.tx t).win) ∨ x.win = s.shared.gWm)
    (hsettled : (book s).Settled n) : Good port s t s.shared (x.waitFrom n) := by
  unfold Tx.waitFrom
  split
  · refine good_quiet (q := .wait n) h rfl rfl hpb rfl rfl rfl rfl rfl
      (h.lockStep rfl hphold.symm rfl rfl) (.inl (hlive ▸ congrArg some hslot)) (by simp)
      (fun _ => hwin) (by simp) (fun m hm => ?_) trivial
    obtain rfl := Option.some.inj hm
    exact hsettled
  · next hge =>
      refine good_quiet (q := .queue) h rfl rfl hpb rfl rfl rfl rfl rfl
        (h.lockStep rfl hphold.symm rfl rfl) (.inl (hlive ▸ congrArg some hslot)) (by simp)
        (fun _ => hwin) (by simp) (fun m hm => ?_) trivial
      obtain rfl := Option.some.inj hm
      exact hsettled.mono (Nat.not_lt.1 hge)

omit [DecidableEq T] in
/-- A slot that is waited for is resolved if it is not starting and its entry does not look in
progress. -/
theorem settled_succ {n : ℕ} (hn : (s.tx t).waited = some n)
    (hlive : (s.tx t).live = some (s.tx t).slot) (hstart : ¬Starting s n)
    (hentry : (s.shared.entry n).state ≠ .progress ∨ (s.shared.entry n).tag ≠ tagOf port n) :
    (book s).Settled (n + 1) := by
  have hsettled := (h.tx t).waited n hn
  have hle : n ≤ (s.tx t).slot := hsettled.le (t := t) hlive
  refine hsettled.succ (hle.trans_lt (h.live_lt hlive)) fun u hu => ?_
  have hnotTag : (s.tx u).pc.phase ≠ .tag n := fun heq => hstart ⟨u, .inl heq⟩
  have hnotStart : (s.tx u).pc.phase ≠ .start n := fun heq => hstart ⟨u, .inr heq⟩
  rcases hentry with hstate | htag
  · exact hstate ((h.tx u).progress n hu hnotTag hnotStart)
  · exact htag ((h.tx u).own n hu hnotTag)

omit [DecidableEq T] h in
theorem publishing_pubFrom {i : ℕ} {e : LogEntry} (hi : i ≤ inlineLen port x.writeSet.length)
    (hw : Written e x.writeSet i) : (x.pubFrom port i).Publishing port e := by
  unfold Tx.pubFrom
  rw [nextInline_eq]
  by_cases hlt : i < inlineLen port x.writeSet.length
  · rw [if_pos hlt]
    exact ⟨hlt, hw⟩
  · obtain rfl : i = inlineLen port x.writeSet.length := by omega
    rw [if_neg hlt]
    by_cases hlong : kMaxInlineWs < x.writeSet.length
    · rw [if_pos hlong]
      exact hw
    · rw [if_neg hlong]
      exact ⟨hw, fun hlong' => absurd hlong' hlong⟩

omit [DecidableEq T] h in
theorem phase_pubFrom (i : ℕ) : (x.pubFrom port i).pc.phase = .decide := by
  unfold Tx.pubFrom
  rw [nextInline_eq]
  dsimp only
  split
  · rfl
  · split <;> rfl

omit [DecidableEq T] h in
theorem validateFrom_eq (port : Port) (x : Tx) (rest : List (CellAddr × Word)) :
    ∃ p, x.validateFrom port rest = { x with pc := p } ∧ p.phase = .decide ∧
      ∀ e, ({ x with pc := p } : Tx).Publishing port e := by
  cases rest with
  | nil => exact ⟨_, rfl, rfl, fun _ => trivial⟩
  | cons r rest => exact ⟨_, rfl, rfl, fun _ => trivial⟩

omit [DecidableEq T] h in
theorem phase_pubMemFrom (rest : List (CellAddr × Word)) :
    (x.pubMemFrom rest).pc.phase = .decide := by
  unfold Tx.pubMemFrom
  dsimp only
  split <;> rfl

omit [DecidableEq T] h in
theorem publishing_pubMemFrom {e : LogEntry} (rest : List (CellAddr × Word))
    (hholds : Holds port e x.writeSet) : (x.pubMemFrom rest).Publishing port e := by
  unfold Tx.pubMemFrom
  split
  · exact hholds
  · exact hholds

omit [DecidableEq T] h in
theorem sameSlots_foldStore (a : CellAddr) (v : Word) :
    SameSlots s.shared (foldStore port s.shared x a v) := by
  unfold foldStore
  split
  · exact .refl _
  · exact ⟨rfl, rfl, rfl, rfl, rfl, rfl⟩

theorem good_done (hp : (s.tx t).pc.phase = .done) (hx : GoesOn (s.tx t) x)
    (hσ : SameSlots s.shared σ) : Good port s t σ x := by
  have hq := hx.phase
  obtain ⟨p, rfl⟩ := hx.same
  exact good_same h hp hq hσ rfl rfl rfl rfl (by simp) (publishing_of_ne (by simp [hq]) _)

theorem good_run (hp : (s.tx t).pc.phase = .run) (hq : x.pc.phase = .run)
    (hslot : x.slot = (s.tx t).slot) (hactive : x.active = (s.tx t).active)
    (hwin : x.win = (s.tx t).win) : Good port s t s.shared x :=
  good_same h hp hq (.refl _) hslot hactive hwin rfl (by simp)
    (publishing_of_ne (by simp [hq]) _)

section Access

variable (hacc : access port t s.shared (s.tx t) = some (σ, x))
include hacc

theorem good_access_run (hp : (s.tx t).pc.phase = .run) : Good port s t σ x := by
  have hlive : (s.tx t).live = some (s.tx t).slot := by simp [Tx.live, hp]
  unfold access at hacc
  cases hpc : (s.tx t).pc
  all_goals rw [hpc] at hacc
  all_goals try obtain ⟨rfl, rfl⟩ := pair_eq hacc
  case body =>
    cases hacc
  case bloomFirst a =>
    refine good_run h hp ?_ rfl rfl rfl
    dsimp only
    split <;> rfl
  case bloomSecond a =>
    refine good_run h hp ?_ rfl rfl rfl
    dsimp only
    split <;> rfl
  case readMem a =>
    exact good_run h hp rfl rfl rfl rfl
  case resolve a k r =>
    cases k with
    | read =>
        split
        · exact good_run h hp rfl rfl rfl rfl
        · exact good_run h hp rfl rfl rfl rfl
    | validate observed rest => simp [hpc, Pc.phase] at hp
  case commitWm =>
    exact good_waitFrom h hlive (by rw [hp]; rfl) (by rw [hp]; rfl) rfl (.inr rfl) h.wm
  all_goals simp [hpc, Pc.phase] at hp

theorem good_access_wait {n : ℕ} (hpc : (s.tx t).pc = .waitState n) (hstart : ¬Starting s n) :
    Good port s t σ x := by
  have hp : (s.tx t).pc.phase = .wait n := by rw [hpc]; rfl
  have hlive : (s.tx t).live = some (s.tx t).slot := by simp [Tx.live, hp]
  have hwaited : (s.tx t).waited = some n := by simp [Tx.waited, hp]
  have hsettled := (h.tx t).waited n hwaited
  unfold access at hacc
  rw [hpc] at hacc
  obtain ⟨rfl, rfl⟩ := pair_eq hacc
  split
  · have hlt : n < s.shared.gNext := (hsettled.le (t := t) hlive).trans_lt (h.live_lt hlive)
    refine good_quiet (q := .check n) h hp rfl rfl rfl rfl rfl rfl rfl
      (h.lockStep hp rfl rfl rfl) (.inl hlive.symm) (by simp) (fun _ => .inl ⟨rfl, rfl⟩)
      (fun m hm => ?_) (fun m hm => ?_) trivial
    · obtain rfl := Phase.check.inj hm
      exact ⟨hlt, hstart⟩
    · obtain rfl := Option.some.inj hm
      exact hsettled
  · next hstate =>
      exact good_waitFrom h hlive (by rw [hp]; rfl) (by rw [hp]; rfl) rfl
        (.inl ⟨by rw [hp]; rfl, rfl⟩) (settled_succ h hwaited hlive hstart (.inl hstate))

theorem good_access_check {n : ℕ} (hpc : (s.tx t).pc = .waitTag n) : Good port s t σ x := by
  have hp : (s.tx t).pc.phase = .check n := by rw [hpc]; rfl
  have hlive : (s.tx t).live = some (s.tx t).slot := by simp [Tx.live, hp]
  have hwaited : (s.tx t).waited = some n := by simp [Tx.waited, hp]
  have hsettled := (h.tx t).waited n hwaited
  unfold access at hacc
  rw [hpc] at hacc
  obtain ⟨rfl, rfl⟩ := pair_eq hacc
  split
  · refine good_quiet (q := .wait n) h hp rfl rfl rfl rfl rfl rfl rfl
      (h.lockStep hp rfl rfl rfl) (.inl hlive.symm) (by simp) (fun _ => .inl ⟨rfl, rfl⟩)
      (by simp) (fun m hm => ?_) trivial
    obtain rfl := Option.some.inj hm
    exact hsettled
  · next htag =>
      exact good_waitFrom h hlive (by rw [hp]; rfl) (by rw [hp]; rfl) rfl
        (.inl ⟨by rw [hp]; rfl, rfl⟩)
        (settled_succ h hwaited hlive (h.begun t n hp).2 (.inr htag))

theorem good_access_lock (hpc : (s.tx t).pc = .lock) : Good port s t σ x := by
  have hp : (s.tx t).pc.phase = .queue := by rw [hpc]; rfl
  unfold access at hacc
  rw [hpc] at hacc
  have hacc := Option.some.inj hacc
  unfold acquire at hacc
  by_cases hfree : s.shared.gCommitLock = true
  · rw [if_pos hfree] at hacc
    obtain ⟨rfl, rfl⟩ := Prod.mk.inj hacc
    exact good_same h hp hp (.refl _) rfl rfl rfl rfl (by simp) (h.tx t).publishing
  · rw [if_neg hfree] at hacc
    obtain ⟨rfl, rfl⟩ := Prod.mk.inj hacc
    obtain ⟨p, heq, hq, hpub⟩ := validateFrom_eq port (s.tx t) (s.tx t).readSet
    rw [heq]
    exact good_take h hp (by simpa using hfree) hq rfl rfl hpub

theorem good_access_decide (hp : (s.tx t).pc.phase = .decide) : Good port s t σ x := by
  have hpub := (h.tx t).publishing
  unfold Tx.Publishing at hpub
  unfold access at hacc
  cases hpc : (s.tx t).pc
  all_goals rw [hpc] at hacc hpub
  all_goals try obtain ⟨rfl, rfl⟩ := pair_eq hacc
  case resolve a k r =>
    cases k with
    | read => simp [hpc, Pc.phase] at hp
    | validate observed rest =>
        split
        · exact good_same h hp rfl (.refl _) rfl rfl rfl rfl (by simp) trivial
        · unfold Tx.resolved
          dsimp only
          split
          · obtain ⟨p, heq, hq, hpub⟩ := validateFrom_eq port (s.tx t) rest
            rw [heq]
            exact good_same h hp hq (.refl _) rfl rfl rfl rfl (by simp) (hpub _)
          · exact good_same h hp rfl (.refl _) rfl rfl rfl rfl (by simp) trivial
  case conflictRelease =>
    cases port with
    | cpp =>
        refine good_unlock (q := .idle) h hp rfl rfl rfl rfl ?_
        by_cases hactive : (s.tx t).active = true
        · exact .inl ((if_pos hactive).trans (live_of_decide hp).symm)
        · exact .inr (if_neg hactive)
    | rust =>
        exact good_unlock (q := .retreat) h hp rfl rfl rfl rfl (.inl (live_of_decide hp).symm)
  case resetCount =>
    split
    · next hnil => exact good_store h hp rfl rfl rfl (fun _ => rfl) (fun _ => rfl) ⟨hnil, rfl⟩
    · exact good_store h hp (phase_pubFrom 0) rfl rfl (fun _ => rfl) (fun _ => rfl)
        (publishing_pubFrom (Nat.zero_le _) (.zero _ _))
  case readOnlyState =>
    obtain ⟨hnil, hcount⟩ := hpub
    exact good_publish h hp (hnil ▸ .nil hcount) rfl rfl rfl
  case pubAddr i =>
    obtain ⟨w, hw, rfl, rfl⟩ := map_pair_eq hacc
    refine good_store h hp rfl rfl rfl (fun _ => rfl) (fun _ => rfl)
      ⟨hpub.1, hpub.2.setAddr w.1, fun u hu => ?_⟩
    obtain rfl : w = u := Option.some.inj (hw.symm.trans hu)
    exact Function.update_self _ _ _
  case pubVal i =>
    obtain ⟨w, hw, rfl, rfl⟩ := map_pair_eq hacc
    exact good_store h hp (phase_pubFrom _) rfl rfl (fun _ => rfl) (fun _ => rfl)
      (publishing_pubFrom hpub.1 (hpub.2.1.setVal hw (hpub.2.2 w hw)))
  case pubOverflow =>
    exact good_store h hp rfl rfl rfl (fun _ => rfl) (fun _ => rfl)
      ⟨hpub.congr rfl rfl, fun _ => rfl⟩
  case pubCount =>
    exact good_store h hp (phase_pubMemFrom _) rfl rfl (fun _ => rfl) (fun _ => rfl)
      (publishing_pubMemFrom _ ⟨rfl, hpub.1.congr rfl rfl, hpub.2⟩)
  case pubMem rest =>
    obtain ⟨w, hw, rfl, rfl⟩ := map_pair_eq hacc
    exact good_same h hp (phase_pubMemFrom _) ⟨rfl, rfl, rfl, rfl, rfl, rfl⟩ rfl rfl rfl rfl
      (by simp) (publishing_pubMemFrom _ hpub)
  case pubState =>
    refine good_publish h hp hpub ?_ rfl rfl
    unfold Tx.pubIndexFrom
    dsimp only
    split <;> rfl
  all_goals simp [hpc, Pc.phase] at hp

theorem good_access_done (hp : (s.tx t).pc.phase = .done) : Good port s t σ x := by
  unfold access at hacc
  cases hpc : (s.tx t).pc
  all_goals rw [hpc] at hacc
  all_goals try obtain ⟨rfl, rfl⟩ := pair_eq hacc
  case readOnlyRelease | release =>
    exact good_unlock (q := .idle) h hp rfl rfl rfl rfl (.inr rfl)
  case pubIndex rest =>
    obtain ⟨w, hw, rfl, rfl⟩ := map_pair_eq hacc
    refine good_same h hp ?_ ⟨rfl, rfl, rfl, rfl, rfl, rfl⟩ rfl rfl rfl rfl (by simp)
      (publishing_of_ne ?_ _)
    all_goals
      unfold Tx.pubIndexFrom
      dsimp only
      split <;> simp [Pc.phase]
  case dueWm =>
    split
    · exact good_done h hp (goesOn_foldFrom _) (.refl _)
    · exact good_done h hp (goesOn_dirtyFrom _) (.refl _)
  case foldTag n | foldState n =>
    split
    · exact good_done h hp (goesOn_pc rfl rfl) (.refl _)
    · exact good_done h hp (goesOn_foldFrom _) (.refl _)
  case foldCount n =>
    exact good_done h hp (goesOn_foldInline ..) (.refl _)
  case foldAddr n len i | foldVal n len i a =>
    exact good_done h hp (goesOn_pc rfl rfl) (.refl _)
  case foldMem n len i a v =>
    exact good_done h hp (goesOn_foldInline ..) (sameSlots_foldStore a v)
  case foldOverflow n =>
    exact good_done h hp (goesOn_foldRestFrom ..) (.refl _)
  case foldRest n rest =>
    obtain ⟨w, hw, rfl, rfl⟩ := map_pair_eq hacc
    exact good_done h hp (goesOn_foldRestFrom ..) (sameSlots_foldStore w.1 w.2)
  case storeWm =>
    exact good_storeWm h hp
  case clear i =>
    split
    · exact good_done h hp (goesOn_pc rfl rfl) ⟨rfl, rfl, rfl, rfl, rfl, rfl⟩
    · exact good_done h hp (goesOn_dirtyFrom _) ⟨rfl, rfl, rfl, rfl, rfl, rfl⟩
  case dirtyFirst rest =>
    obtain ⟨w, hw, rfl, rfl⟩ := map_pair_eq hacc
    exact good_done h hp (goesOn_pc rfl rfl) ⟨rfl, rfl, rfl, rfl, rfl, rfl⟩
  case dirtySecond rest =>
    obtain ⟨w, hw, rfl, rfl⟩ := map_pair_eq hacc
    exact good_done h hp (goesOn_dirtyFrom _) ⟨rfl, rfl, rfl, rfl, rfl, rfl⟩
  case resolve a k r => cases k <;> simp [hpc, Pc.phase] at hp
  all_goals simp [hpc, Pc.phase] at hp

theorem good_access (hord : OrderlyAt s (s.tx t).pc.phase) : Good port s t σ x := by
  have hacc' := hacc
  unfold access at hacc
  cases hpc : (s.tx t).pc
  all_goals rw [hpc] at hacc hord
  all_goals try obtain ⟨rfl, rfl⟩ := pair_eq hacc
  case out =>
    cases hacc
  case beginMark =>
    have hmark : (s.tx t).pc.phase = .mark := by rw [hpc]; rfl
    exact good_abort h hmark (by simp [Tx.live, hmark]) rfl rfl rfl rfl (.inr rfl)
  case claim =>
    exact good_claim h (by rw [hpc]; rfl)
  case beginTag n =>
    exact good_tag h (by rw [hpc]; rfl) hord
  case beginState n =>
    exact good_start h (by rw [hpc]; rfl)
  case waitState n =>
    exact good_access_wait h hacc' hpc hord
  case waitTag n => exact good_access_check h hacc' hpc
  case lock => exact good_access_lock h hacc' hpc
  case conflictState =>
    have hretreat : (s.tx t).pc.phase = .retreat := by rw [hpc]; rfl
    exact good_abort h hretreat (by simp [Tx.live, hretreat]) rfl rfl rfl rfl (.inl rfl)
  case resolve a k r =>
    cases k with
    | read => exact good_access_run h hacc' (by rw [hpc]; rfl)
    | validate observed rest => exact good_access_decide h hacc' (by rw [hpc]; rfl)
  case body | bloomFirst | bloomSecond | readMem | commitWm =>
    exact good_access_run h hacc' (by rw [hpc]; rfl)
  case conflictRelease | resetCount | readOnlyState | pubAddr | pubVal | pubOverflow | pubCount
      | pubMem | pubState =>
    exact good_access_decide h hacc' (by rw [hpc]; rfl)
  case readOnlyRelease | pubIndex | dueWm | foldTag | foldState | foldCount | foldAddr | foldVal
      | foldMem | foldOverflow | foldRest | storeWm | clear | dirtyFirst | dirtySecond | release =>
    exact good_access_done h hacc' (by rw [hpc]; rfl)

end Access

omit [DecidableEq T] h in
theorem phase_readWord (a : CellAddr) (hp : (s.tx t).pc = .body) :
    ((s.tx t).readWord a).pc.phase = .run ∧ ((s.tx t).readWord a).slot = (s.tx t).slot ∧
      ((s.tx t).readWord a).active = (s.tx t).active ∧
      ((s.tx t).readWord a).win = (s.tx t).win := by
  unfold Tx.readWord
  split
  · exact ⟨by rw [hp]; rfl, rfl, rfl, rfl⟩
  · exact ⟨rfl, rfl, rfl, rfl⟩

theorem good_mark {p : Phase} (hp : (s.tx t).pc.phase = p) (hpb : p.begins = none)
    (hphold : p.holding = false) (hlive : (s.tx t).live = some (s.tx t).slot) :
    Good port s t s.shared { s.tx t with pc := .beginMark } :=
  good_quiet (q := .mark) h hp rfl hpb rfl rfl rfl rfl rfl
    (h.lockStep hp hphold.symm rfl rfl) (.inl hlive.symm) (by simp) (by simp [Phase.committing])
    (by simp) (fun _ hw => by cases hw) trivial

theorem good_next {c : TmCall CellAddr} (hnext : next port t s.shared (s.tx t) c = some (σ, x))
    (hord : OrderlyAt s (s.tx t).pc.phase) : Good port s t σ x := by
  rcases next_eq_some hnext with ⟨rfl, hacc⟩ | ⟨rfl, hcall⟩
  · exact good_access h hacc hord
  cases hcall with
  | weak hpc =>
      have hp : (s.tx t).pc.phase = .queue := by rw [hpc]; rfl
      exact good_same h hp hp (.refl _) rfl rfl rfl rfl (by simp) (h.tx t).publishing
  | begin hpc =>
      have hp : (s.tx t).pc.phase = .idle := by rw [hpc]; rfl
      by_cases hactive : (s.tx t).active = true
      · rw [if_pos hactive]
        exact good_mark h hp rfl rfl (by simp [Tx.live, hp, hactive])
      · rw [if_neg hactive]
        exact good_quiet (q := .claim) h hp rfl rfl rfl rfl rfl rfl rfl
          (h.lockStep hp rfl rfl rfl) (.inr rfl) (by simp) (by simp [Phase.committing]) (by simp)
          (fun _ hw => by cases hw) trivial
  | restart hpc =>
      have hp : (s.tx t).pc.phase = .run := by rw [hpc]; rfl
      exact good_mark h hp rfl rfl (by simp [Tx.live, hp])
  | read a hpc =>
      obtain ⟨hq, hslot, hactive, hwin⟩ := phase_readWord a hpc
      exact good_run h (by rw [hpc]; rfl) hq hslot hactive hwin
  | write a v hpc =>
      have hp : (s.tx t).pc.phase = .run := by rw [hpc]; rfl
      exact good_run h hp hp rfl rfl rfl
  | commit hpc => exact good_run h (by rw [hpc]; rfl) rfl rfl rfl rfl
  | abort hpc => exact good_drop h (by rw [hpc]; rfl)

end Steps

section Run

variable {T : Type} [DecidableEq T] {port : Port} {m₀ : CellAddr → Word}
  {s : Threads (Shared T) Tx T}

omit [DecidableEq T] in
theorem slotInv_init (port : Port) (m₀ : CellAddr → Word) : SlotInv port (init T m₀) where
  holder t := by simp [init, Pc.phase, Phase.holding]
  lock := rfl
  book :=
    { lt := fun _ _ hn => by cases hn
      inj := fun _ _ _ hn => by cases hn
      served := fun _ hn => by cases hn
      sorted := .nil }
  wm := ⟨Nat.zero_le _, fun _ _ hn => by cases hn⟩
  winLe _ hc := by cases hc
  wmSlot _ hd := by cases hd
  near n hn _ := by
    have hn : n < 1 := hn
    refine ⟨?_, fun u hu => by cases hu⟩
    show n < 0 + kLogSlots
    unfold kLogSlots
    omega
  begun _ _ hc := by cases hc
  dead n hn _ _ := by
    have hn : n < 1 := hn
    obtain rfl : n = 0 := by omega
    exact ⟨by cases port <;> rfl, fun _ hws => (by cases hws), fun _ hstate => by cases hstate⟩
  tx _ := ⟨fun _ hn => (by cases hn), fun _ hn => (by cases hn), fun _ hn => (by cases hn), trivial⟩

/-- In a run with a side condition that makes every step orderly the slots are in order. -/
theorem slotInv_run {ok : Threads (Shared T) Tx T → T × TmCall CellAddr →
    Threads (Shared T) Tx T → Prop}
    (hok : ∀ s l s', ok s l s' → Orderly s l s') (hr : Run (step port) ok (init T m₀) s) :
    SlotInv port s := by
  refine hr.induction_on (slotInv_init port m₀) fun s₁ l s₂ _ h hs hb => ?_
  obtain ⟨σ, x, hnext, rfl⟩ := Threads.step_eq_some hs
  exact (good_next h hnext (hok _ _ _ hb)).inv h

end Run

end MVLog
