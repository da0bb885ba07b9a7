import ClangTM.MVLog.Basic
import ClangTM.Ticket.Order

/-!
# The slots of the multi-version log

A slot is live from the moment a transaction claims it until its log entry is marked
`Committed` or `Aborted`, or the transaction is dropped. `Phase` is what the program counter
of a thread says about its slot; the slots of the threads are tickets in the sense of
`Ticket.Book`.

The ring has room for `kLogSlots` slots. A slot is kept as long as it is not below the
watermark, nor below the watermark that some commit under way has loaded first. `SlotInv`
says what the log entries of the kept slots are: the entry of a live slot is the transaction's
own, and the entry of a slot that is not live any more has the write set that its transaction
published, if it published one.
-/

namespace MVLog

open Serial Transition Ticket

section Entries

variable {port : Port} {n i : ℕ} {e : LogEntry} {ws : List (CellAddr × Word)}

/-- How many entries of a write set of length `n` are kept in the log entry itself. -/
def inlineLen (port : Port) (n : ℕ) : ℕ :=
  match port with
  | .cpp => if kMaxInlineWs < n then 0 else n
  | .rust => min n kMaxInlineWs

theorem nextInline_eq {α : Type} (port : Port) (n i : ℕ) (inline overflow done : α) :
    nextInline port n i inline overflow done =
      if i < inlineLen port n then inline else if kMaxInlineWs < n then overflow else done := by
  cases port with
  | cpp =>
      by_cases hn : kMaxInlineWs < n <;> simp [nextInline, inlineLen, hn]
  | rust => rfl

theorem inlineLen_le (port : Port) (n : ℕ) : inlineLen port n ≤ n := by
  cases port with
  | cpp =>
      unfold inlineLen
      dsimp only
      split <;> omega
  | rust => exact Nat.min_le_left n kMaxInlineWs

theorem inlineLen_of_le (h : n ≤ kMaxInlineWs) : inlineLen port n = n := by
  cases port with
  | cpp => simp [inlineLen, Nat.not_lt.2 h]
  | rust => simp [inlineLen, h]

def Written (e : LogEntry) (ws : List (CellAddr × Word)) (i : ℕ) : Prop :=
  ∀ j < i, ∀ w, ws[j]? = some w → e.wsAddr j = w.1 ∧ e.wsVal j = w.2

structure Holds (port : Port) (e : LogEntry) (ws : List (CellAddr × Word)) : Prop where
  count : e.wsCount = ws.length
  inline : Written e ws (inlineLen port ws.length)
  overflow : kMaxInlineWs < ws.length → e.overflow = some ws

theorem Written.zero (e : LogEntry) (ws : List (CellAddr × Word)) : Written e ws 0 := by
  intro j hj
  omega

theorem Written.setAddr (h : Written e ws i) (a : CellAddr) :
    Written { e with wsAddr := Function.update e.wsAddr i a } ws i := by
  intro j hj w hw
  have hne : j ≠ i := by omega
  obtain ⟨haddr, hval⟩ := h j hj w hw
  exact ⟨(Function.update_of_ne hne _ _).trans haddr, hval⟩

theorem Written.setVal {w : CellAddr × Word} (h : Written e ws i) (hw : ws[i]? = some w)
    (haddr : e.wsAddr i = w.1) :
    Written { e with wsVal := Function.update e.wsVal i w.2 } ws (i + 1) := by
  intro j hj u hu
  by_cases hji : j = i
  · subst hji
    obtain rfl : w = u := Option.some.inj (hw.symm.trans hu)
    exact ⟨haddr, Function.update_self _ _ _⟩
  · obtain ⟨haddr', hval⟩ := h j (by omega) u hu
    exact ⟨haddr', (Function.update_of_ne hji _ _).trans hval⟩

theorem Written.congr {e' : LogEntry} (h : Written e ws i) (haddr : e'.wsAddr = e.wsAddr)
    (hval : e'.wsVal = e.wsVal) : Written e' ws i := by
  intro j hj w hw
  rw [haddr, hval]
  exact h j hj w hw

theorem Holds.congr {e' : LogEntry} (h : Holds port e ws) (hcount : e'.wsCount = e.wsCount)
    (haddr : e'.wsAddr = e.wsAddr) (hval : e'.wsVal = e.wsVal)
    (hover : e'.overflow = e.overflow) : Holds port e' ws where
  count := hcount.trans h.count
  inline := h.inline.congr haddr hval
  overflow hlen := hover.trans (h.overflow hlen)

theorem Holds.nil (h : e.wsCount = 0) : Holds port e [] where
  count := h
  inline j _ w hw := by simp at hw
  overflow hlen := by simp at hlen

end Entries

/-- What the program counter of a thread says about its slot. -/
inductive Phase
  /-- Outside a transaction; the slot of an attempt that ended in a jump is still live. -/
  | idle
  | mark
  | claim
  | tag (n : ℕ)
  | start (n : ℕ)
  | run
  /-- Waiting for slot `n`, having found all slots before it resolved. -/
  | wait (n : ℕ)
  | check (n : ℕ)
  | queue
  /-- Holding the commit lock, the slot being live. -/
  | decide
  | retreat
  /-- Holding the commit lock, the slot being resolved. -/
  | done
deriving DecidableEq

namespace Phase

def holding : Phase → Bool
  | .decide | .done => true
  | _ => false

/-- The slot that the thread is about to tag or to mark as in progress. -/
def begins : Phase → Option ℕ
  | .tag n | .start n => some n
  | _ => none

/-- The thread uses the watermark that it has loaded. -/
def committing : Phase → Bool
  | .wait _ | .check _ | .queue | .decide | .done => true
  | _ => false

end Phase

def Pc.phase : Pc → Phase
  | .out => .idle
  | .beginMark => .mark
  | .claim => .claim
  | .beginTag n => .tag n
  | .beginState n => .start n
  | .body | .bloomFirst _ | .bloomSecond _ | .readMem _ | .commitWm => .run
  | .resolve _ .read _ => .run
  | .resolve _ (.validate _ _) _ => .decide
  | .waitState n => .wait n
  | .waitTag n => .check n
  | .lock => .queue
  | .conflictState => .retreat
  | .conflictRelease | .resetCount | .readOnlyState | .pubAddr _ | .pubVal _ | .pubOverflow
  | .pubCount | .pubMem _ | .pubState => .decide
  | .readOnlyRelease | .pubIndex _ | .dueWm | .foldTag _ | .foldState _ | .foldCount _
  | .foldAddr _ _ _ | .foldVal _ _ _ _ | .foldMem _ _ _ _ _ | .foldOverflow _ | .foldRest _ _
  | .storeWm | .clear _ | .dirtyFirst _ | .dirtySecond _ | .release => .done

namespace Tx

variable (x : Tx)

def live : Option ℕ :=
  match x.pc.phase with
  | .idle => if x.active then some x.slot else none
  | .claim | .done => none
  | .tag n | .start n => some n
  | _ => some x.slot

/-- The slot below which the thread has found all slots resolved. -/
def waited : Option ℕ :=
  match x.pc.phase with
  | .wait n | .check n => some n
  | .queue | .decide | .done => some x.slot
  | _ => none

/-- The part of the write set that is in the log entry so far. -/
def Publishing (port : Port) (e : LogEntry) : Prop :=
  match x.pc with
  | .readOnlyState => x.writeSet = [] ∧ e.wsCount = 0
  | .pubAddr i => i < inlineLen port x.writeSet.length ∧ Written e x.writeSet i
  | .pubVal i =>
      i < inlineLen port x.writeSet.length ∧ Written e x.writeSet i ∧
        ∀ w, x.writeSet[i]? = some w → e.wsAddr i = w.1
  | .pubOverflow => Written e x.writeSet (inlineLen port x.writeSet.length)
  | .pubCount =>
      Written e x.writeSet (inlineLen port x.writeSet.length) ∧
        (kMaxInlineWs < x.writeSet.length → e.overflow = some x.writeSet)
  | .pubMem _ | .pubState => Holds port e x.writeSet
  | _ => True

end Tx

structure Closed (port : Port) (e : LogEntry) (n : ℕ)
    (pubs : List (ℕ × List (CellAddr × Word))) : Prop where
  tag : e.tag = tagOf port n
  published : ∀ ws, (n, ws) ∈ pubs → e.state = .committed ∧ Holds port e ws
  unpublished : (∀ ws, (n, ws) ∉ pubs) → e.state ≠ .committed

section System

variable {T : Type} (port : Port) (s : Threads (Shared T) Tx T)

def book : Book T where
  next := s.shared.gNext
  live t := (s.tx t).live
  served := s.shared.pubs.map Prod.fst

def Tagged (n : ℕ) : Prop := ∀ u, (s.tx u).pc.phase ≠ .tag n

/-- The slot is claimed and its log entry is not in progress yet. -/
def Starting (n : ℕ) : Prop :=
  ∃ u, (s.tx u).pc.phase = .tag n ∨ (s.tx u).pc.phase = .start n

/-- The slot is not below the watermark, or some commit under way still has it in its
window. -/
def Kept (n : ℕ) : Prop :=
  s.shared.gWm ≤ n ∨ ∃ u, (s.tx u).pc.phase.committing = true ∧ (s.tx u).win ≤ n

/-- The entry of the slot is not the entry of a slot that is kept. -/
def Fits (n : ℕ) : Prop :=
  n < s.shared.gWm + kLogSlots ∧
    ∀ u, (s.tx u).pc.phase.committing = true → n < (s.tx u).win + kLogSlots

structure TxInv (σ : Shared T) (b : Book T) (x : Tx) : Prop where
  own : ∀ n, x.live = some n → x.pc.phase ≠ .tag n → (σ.entry n).tag = tagOf port n
  progress : ∀ n, x.live = some n → x.pc.phase ≠ .tag n → x.pc.phase ≠ .start n →
    (σ.entry n).state = .progress
  waited : ∀ n, x.waited = some n → b.Settled n
  publishing : x.Publishing port (σ.entry x.slot)

structure SlotInv : Prop where
  holder : ∀ t, s.shared.holder = some t ↔ (s.tx t).pc.phase.holding = true
  lock : s.shared.gCommitLock = s.shared.holder.isSome
  book : (book s).Inv
  wm : (MVLog.book s).Settled s.shared.gWm
  winLe : ∀ t, (s.tx t).pc.phase.committing = true → (s.tx t).win ≤ s.shared.gWm
  wmSlot : ∀ t, (s.tx t).pc.phase = .done → s.shared.gWm ≤ (s.tx t).slot
  near : ∀ n < s.shared.gNext, Tagged s n → Fits s n
  begun : ∀ t n, (s.tx t).pc.phase = .check n → n < s.shared.gNext ∧ ¬Starting s n
  dead : ∀ n < s.shared.gNext, (∀ u, (s.tx u).live ≠ some n) → Kept s n →
    Closed port (s.shared.entry n) n s.shared.pubs
  tx : ∀ t, TxInv port s.shared (MVLog.book s) (s.tx t)

end System

section Live

variable {x : Tx} {n : ℕ}

theorem live_of_tag (h : x.pc.phase = .tag n) : x.live = some n := by
  simp [Tx.live, h]

theorem live_of_start (h : x.pc.phase = .start n) : x.live = some n := by
  simp [Tx.live, h]

theorem live_of_decide (h : x.pc.phase = .decide) : x.live = some x.slot := by
  simp [Tx.live, h]

theorem live_of_done (h : x.pc.phase = .done) : x.live = none := by
  simp [Tx.live, h]

theorem waited_of_holding (h : x.pc.phase.holding = true) : x.waited = some x.slot := by
  unfold Tx.waited
  cases hp : x.pc.phase <;> simp_all [Phase.holding]

theorem publishing_of_ne {port : Port} (h : x.pc.phase ≠ .decide) (e : LogEntry) :
    x.Publishing port e := by
  unfold Tx.Publishing
  split
  all_goals first
    | trivial
    | (next heq => exact absurd (by rw [heq]; rfl) h)

end Live

namespace Shared

variable {T : Type} {σ : Shared T} {m n : ℕ} {f : LogEntry → LogEntry}

theorem entry_setEntry (σ : Shared T) (n : ℕ) (f : LogEntry → LogEntry) :
    (σ.setEntry n f).entry n = f (σ.entry n) := Function.update_self _ _ _

theorem entry_setEntry_of_ne (h : m % kLogSlots ≠ n % kLogSlots) :
    (σ.setEntry n f).entry m = σ.entry m := Function.update_of_ne h _ _

end Shared

section Good

variable {T : Type} {port : Port} {s : Threads (Shared T) Tx T} {t : T}

/-- Two slots that are less than a ring apart have the same entry only if they are equal. -/
theorem eq_of_near {m n : ℕ} (h₁ : m < n + kLogSlots) (h₂ : n < m + kLogSlots)
    (hmod : m % kLogSlots = n % kLogSlots) : m = n := by
  unfold kLogSlots at *
  omega

theorem Kept.lt {m n : ℕ} (h : Kept s m) (hfits : Fits s n) : n < m + kLogSlots := by
  rcases h with hwm | ⟨u, hu, hwin⟩
  · have := hfits.1
    omega
  · have := hfits.2 u hu
    omega

theorem tagged_of_dead {n : ℕ} (hdead : ∀ u, (s.tx u).live ≠ some n) : Tagged s n :=
  fun u hu => hdead u (live_of_tag hu)

namespace SlotInv

variable (h : SlotInv port s)
include h

theorem wm_le_live {n : ℕ} (hn : (s.tx t).live = some n) : s.shared.gWm ≤ n := h.wm.le (t := t) hn

theorem live_lt {n : ℕ} (hn : (s.tx t).live = some n) : n < s.shared.gNext := h.book.lt t n hn

theorem mod_ne {m n : ℕ} (hm : m < s.shared.gNext) (htagged : Tagged s m) (hkept : Kept s m)
    (hn : (s.tx t).live = some n) (hfits : Fits s n) (hne : m ≠ n) :
    m % kLogSlots ≠ n % kLogSlots := by
  intro hmod
  have hkeptn : Kept s n := .inl (h.wm_le_live hn)
  exact hne (eq_of_near (hkeptn.lt (h.near m hm htagged)) (hkept.lt hfits) hmod)

theorem fits_of_live {n : ℕ} (hn : (s.tx t).live = some n) (hphase : (s.tx t).pc.phase ≠ .tag n) :
    Fits s n := by
  refine h.near n (h.live_lt hn) fun u hu => ?_
  obtain rfl := h.book.inj u t n (live_of_tag hu) hn
  exact hphase hu

/-- A store to the entry of a live slot leaves the other kept entries as they are. -/
theorem entry_frame {n : ℕ} (hn : (s.tx t).live = some n) (hfits : Fits s n)
    (f : LogEntry → LogEntry) {m : ℕ} (hm : m < s.shared.gNext) (htagged : Tagged s m)
    (hkept : Kept s m) (hne : (s.tx t).live ≠ some m) :
    (s.shared.setEntry n f).entry m = s.shared.entry m :=
  Shared.entry_setEntry_of_ne (h.mod_ne hm htagged hkept hn hfits fun heq => hne (heq ▸ hn))

end SlotInv

variable [DecidableEq T]

/-- What a step of `t` has to do to keep the invariant. -/
structure Good (port : Port) (s : Threads (Shared T) Tx T) (t : T) (σ : Shared T) (x : Tx) :
    Prop where
  move : (book s).Move t (book (s.put t σ x))
  holder : σ.holder = some t ↔ x.pc.phase.holding = true
  others : ∀ u, u ≠ t → (σ.holder = some u ↔ s.shared.holder = some u)
  lock : σ.gCommitLock = σ.holder.isSome
  wm : s.shared.gWm ≤ σ.gWm
  wmFree : (s.tx t).pc.phase.holding = false → σ.gWm = s.shared.gWm
  settled : (book (s.put t σ x)).Settled σ.gWm
  wmSlot : x.pc.phase = .done → σ.gWm ≤ x.slot
  frame : ∀ n < s.shared.gNext, Tagged s n → Kept s n → (s.tx t).live ≠ some n →
    σ.entry n = s.shared.entry n
  pubs : ∀ p : ℕ × List (CellAddr × Word), (s.tx t).live ≠ some p.1 →
    (p ∈ σ.pubs ↔ p ∈ s.shared.pubs)
  claims : σ.gNext ≠ s.shared.gNext → x.pc.phase = .tag s.shared.gNext
  starting : ∀ n, x.pc.phase = .tag n ∨ x.pc.phase = .start n →
    (s.tx t).live = some n ∧ ((s.tx t).pc.phase = .tag n ∨ (s.tx t).pc.phase = .start n) ∨
      n = s.shared.gNext
  tagged : ∀ n, (s.tx t).pc.phase = .tag n → x.pc.phase ≠ .tag n → Fits s n
  win : x.pc.phase.committing = true →
    ((s.tx t).pc.phase.committing = true ∧ x.win = (s.tx t).win) ∨ x.win = s.shared.gWm
  closed : ∀ n, (s.tx t).live = some n → x.live ≠ some n → Closed port (σ.entry n) n σ.pubs
  begun : ∀ n, x.pc.phase = .check n → n < s.shared.gNext ∧ ¬Starting s n
  tx : TxInv port σ (book (s.put t σ x)) x

section Put

variable {σ : Shared T} {x : Tx} (h : SlotInv port s) (g : Good port s t σ x)
include h g

namespace Good

theorem tx_of_ne {u : T} (hu : u ≠ t) :
    TxInv port σ (book (s.put t σ x)) (s.tx u) := by
  have hframe : ∀ n, (s.tx u).live = some n → (s.tx u).pc.phase ≠ .tag n →
      σ.entry n = s.shared.entry n := by
    intro n hn hphase
    refine g.frame n (h.live_lt hn) (fun v hv => ?_) (.inl (h.wm_le_live hn)) fun ht => ?_
    · obtain rfl := h.book.inj v u n (live_of_tag hv) hn
      exact hphase hv
    · exact hu (h.book.inj u t n hn ht)
  refine ⟨fun n hn hphase => ?_, fun n hn hphase hstart => ?_, fun n hn => ?_, ?_⟩
  · rw [hframe n hn hphase]
    exact (h.tx u).own n hn hphase
  · rw [hframe n hn hphase]
    exact (h.tx u).progress n hn hphase hstart
  · exact ((h.tx u).waited n hn).move g.move
  · by_cases hdecide : (s.tx u).pc.phase = .decide
    · rw [hframe _ (live_of_decide hdecide) (by simp [hdecide])]
      exact (h.tx u).publishing
    · exact publishing_of_ne hdecide _

omit h in
theorem kept {n : ℕ} (hkept : Kept (s.put t σ x) n) : Kept s n := by
  rcases hkept with hwm | ⟨u, hu, hwin⟩
  · exact .inl (g.wm.trans hwm)
  · by_cases hut : u = t
    · subst hut
      rw [Threads.put_tx_self] at hu hwin
      rcases g.win hu with ⟨hcom, heq⟩ | heq
      · exact .inr ⟨u, hcom, heq ▸ hwin⟩
      · exact .inl (heq ▸ hwin)
    · rw [Threads.put_tx_of_ne hut] at hu hwin
      exact .inr ⟨u, hu, hwin⟩

omit h in
theorem fits {n : ℕ} (hfits : Fits s n) : Fits (s.put t σ x) n := by
  refine ⟨hfits.1.trans_le (Nat.add_le_add_right g.wm _), fun u hu => ?_⟩
  by_cases hut : u = t
  · subst hut
    rw [Threads.put_tx_self] at hu ⊢
    rcases g.win hu with ⟨hcom, heq⟩ | heq
    · rw [heq]
      exact hfits.2 u hcom
    · rw [heq]
      exact hfits.1
  · rw [Threads.put_tx_of_ne hut] at hu ⊢
    exact hfits.2 u hu

omit h in
/-- A slot that is claimed after the step was claimed before it, or has just been claimed. -/
theorem lt_or_tag {n : ℕ} (hn : n < σ.gNext) :
    n < s.shared.gNext ∨ (n = s.shared.gNext ∧ x.pc.phase = .tag n) := by
  by_cases heq : σ.gNext = s.shared.gNext
  · exact .inl (heq ▸ hn)
  · have hphase := g.claims heq
    have hle : σ.gNext ≤ s.shared.gNext + 1 := by
      cases g.move with
      | keep _ _ next => exact next.le.trans (Nat.le_succ _)
      | claim _ _ next => exact next.le
      | serve _ _ _ _ _ next => exact next.le.trans (Nat.le_succ _)
    rcases Nat.lt_or_eq_of_le (Nat.lt_succ_iff.1 (hn.trans_le hle)) with hlt | heq'
    · exact .inl hlt
    · exact .inr ⟨heq', heq' ▸ hphase⟩

theorem inv : SlotInv port (s.put t σ x) where
  holder u := by
    by_cases hu : u = t
    · subst hu
      rw [Threads.put_tx_self]
      exact g.holder
    · rw [Threads.put_tx_of_ne hu]
      exact (g.others u hu).trans (h.holder u)
  lock := g.lock
  book := h.book.move g.move
  wm := g.settled
  winLe u hu := by
    by_cases hut : u = t
    · subst hut
      rw [Threads.put_tx_self] at hu ⊢
      rcases g.win hu with ⟨hcom, heq⟩ | heq
      · exact heq ▸ (h.winLe u hcom).trans g.wm
      · exact heq ▸ g.wm
    · rw [Threads.put_tx_of_ne hut] at hu ⊢
      exact (h.winLe u hu).trans g.wm
  wmSlot u hu := by
    by_cases hut : u = t
    · subst hut
      rw [Threads.put_tx_self] at hu ⊢
      exact g.wmSlot hu
    · rw [Threads.put_tx_of_ne hut] at hu ⊢
      have hfree : (s.tx t).pc.phase.holding = false := by
        by_contra hne
        have ht := (h.holder t).2 (by simpa using hne)
        rw [(h.holder u).2 (by simp [hu, Phase.holding])] at ht
        exact hut (Option.some.inj ht)
      show σ.gWm ≤ _
      rw [g.wmFree hfree]
      exact h.wmSlot u hu
  near n hn htagged := by
    rcases g.lt_or_tag hn with hlt | ⟨-, hphase⟩
    · refine g.fits ?_
      by_cases hold : Tagged s n
      · exact h.near n hlt hold
      · obtain ⟨u, hu⟩ := not_forall_not.1 hold
        have hself := htagged u
        by_cases hut : u = t
        · subst hut
          rw [Threads.put_tx_self] at hself
          exact g.tagged n hu hself
        · rw [Threads.put_tx_of_ne hut] at hself
          exact absurd hu hself
    · have hself := htagged t
      rw [Threads.put_tx_self] at hself
      exact absurd hphase hself
  begun u n hn := by
    have hold : n < s.shared.gNext ∧ ¬Starting s n := by
      by_cases hut : u = t
      · subst hut
        rw [Threads.put_tx_self] at hn
        exact g.begun n hn
      · rw [Threads.put_tx_of_ne hut] at hn
        exact h.begun u n hn
    refine ⟨hold.1.trans_le g.move.le_next, ?_⟩
    rintro ⟨v, hv⟩
    by_cases hvt : v = t
    · subst hvt
      rw [Threads.put_tx_self] at hv
      rcases g.starting n hv with ⟨-, hs⟩ | heq
      · exact hold.2 ⟨v, hs⟩
      · exact absurd hold.1 (by omega)
    · rw [Threads.put_tx_of_ne hvt] at hv
      exact hold.2 ⟨v, hv⟩
  dead n hn hdead hkept := by
    have hself : x.live ≠ some n := by
      have := hdead t
      rwa [Threads.put_tx_self] at this
    rcases g.lt_or_tag hn with hlt | ⟨-, hphase⟩
    · by_cases hlive : (s.tx t).live = some n
      · exact g.closed n hlive hself
      · have hold : ∀ u, (s.tx u).live ≠ some n := by
          intro u
          by_cases hut : u = t
          · exact hut ▸ hlive
          · have := hdead u
            rwa [Threads.put_tx_of_ne hut] at this
        have hclosed := h.dead n hlt hold (g.kept hkept)
        have hentry := g.frame n hlt (tagged_of_dead hold) (g.kept hkept) hlive
        have hpubs := fun ws => g.pubs (n, ws) hlive
        show Closed port (σ.entry n) n σ.pubs
        rw [hentry]
        exact ⟨hclosed.tag, fun ws hws => hclosed.published ws ((hpubs ws).1 hws),
          fun hno => hclosed.unpublished fun ws hws => hno ws ((hpubs ws).2 hws)⟩
    · exact absurd (live_of_tag hphase) hself
  tx u := by
    by_cases hut : u = t
    · subst hut
      rw [Threads.put_tx_self]
      exact g.tx
    · rw [Threads.put_tx_of_ne hut]
      exact g.tx_of_ne h hut

end Good

end Put

end Good

end MVLog
