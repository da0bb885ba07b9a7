import ClangTM.MVLog.Alone
import ClangTM.MVLog.StoreRun

/-!
# Transactions of the C++ log that do not overlap

When transactions run one after another the slots are published in their order, whatever the
ring does: read-only transactions claim slots and never reclaim any, so a slot can take over
an entry that no reclamation has folded. `Ring` says what is in the entries. An entry that is
committed is that of the newest slot at its place, which is at most a ring behind, so a version
is lost from the ring before any newer one is: the fold can leave a cell at an older value only
if the newer version is still to come.

Hence memory is up to date after every commit, provided that the fold stores to no cell that
the committer itself has written.
-/

namespace MVLog

open Serial Transition

variable {T : Type} {m₀ : CellAddr → Word} {σ σ' : Shared T} {x x' : Tx} {n : ℕ}

/-- No other thread is in a transaction or between two attempts of one. -/
def OneByOne (s : Threads (Shared T) Tx T) (l : T × TmCall CellAddr)
    (_ : Threads (Shared T) Tx T) : Prop :=
  ∀ u, u ≠ l.1 → (s.tx u).pc.phase = .idle ∧ (s.tx u).active = false

instance [Fintype T] [DecidableEq T] (s : Threads (Shared T) Tx T) (l : T × TmCall CellAddr)
    (s' : Threads (Shared T) Tx T) : Decidable (OneByOne s l s') :=
  inferInstanceAs (Decidable (∀ u, u ≠ l.1 → _ ∧ _))

/-- The slots, the ring and what was published, when `x` is the only thread. -/
structure Ring (σ : Shared T) (x : Tx) : Prop where
  sorted : (σ.pubs.map Prod.fst).Pairwise (· > ·)
  nodup : ∀ e ∈ σ.pubs, (e.2.map Prod.fst).Nodup
  below : ∀ e ∈ σ.pubs, e.1 < σ.gNext
  fresh : ∀ n, x.live = some n → n + 1 = σ.gNext ∧ ∀ e ∈ σ.pubs, e.1 < n
  published : ∀ e ∈ σ.pubs, σ.gNext ≤ e.1 + kLogSlots →
    (σ.entry e.1).tag = tagOf .cpp e.1 ∧ (σ.entry e.1).state = .committed
  committed : ∀ n, (∀ k, x.pc.phase.begins = some k → n % kLogSlots ≠ k % kLogSlots) →
    (σ.entry n).state = .committed →
      ∃ e ∈ σ.pubs, e.1 % kLogSlots = n % kLogSlots ∧ σ.gNext ≤ e.1 + kLogSlots ∧
        Holds .cpp (σ.entry n) e.2
  tag : ∀ n, x.live = some n → x.pc.phase ≠ .tag n → (σ.entry n).tag = tagOf .cpp n
  progress : ∀ n, x.live = some n → x.pc.phase.begins = none → (σ.entry n).state = .progress
  publishing : x.Publishing .cpp (σ.entry x.slot)
  head : x.pc.phase = .done →
    x.slot + 1 = σ.gNext ∧ ∃ vs, σ.pubs = (x.slot, x.writeSet) :: vs

namespace Ring

variable (h : Ring σ x)
include h

theorem goto (hnext : σ'.gNext = σ.gNext) (hlog : σ'.gLog = σ.gLog) (hpubs : σ'.pubs = σ.pubs)
    (hb : x.pc.phase.begins = none)
    (hlive : x'.live = x.live ∨ x'.live = none) (hpub : x'.Publishing .cpp (σ.entry x'.slot))
    (hhead : x'.pc.phase = .done →
      x.pc.phase = .done ∧ x'.slot = x.slot ∧ x'.writeSet = x.writeSet) : Ring σ' x' := by
  have hentry : σ'.entry = σ.entry := by
    funext n
    rw [Shared.entry, hlog, Shared.entry]
  have hlive' : ∀ n, x'.live = some n → x.live = some n := by
    intro n hn
    rcases hlive with heq | hnone
    · exact heq ▸ hn
    · rw [hnone] at hn
      cases hn
  have hnotTag : ∀ n, x.pc.phase ≠ .tag n := by
    intro n heq
    rw [heq] at hb
    cases hb
  refine
    { sorted := hpubs ▸ h.sorted
      nodup := hpubs ▸ h.nodup
      below := by rw [hpubs, hnext]; exact h.below
      fresh := fun n hn => by rw [hpubs, hnext]; exact h.fresh n (hlive' n hn)
      published := by rw [hpubs, hnext, hentry]; exact h.published
      committed := fun n _ hc => ?_
      tag := fun n hn _ => by rw [hentry]; exact h.tag n (hlive' n hn) (hnotTag n)
      progress := fun n hn _ => by rw [hentry]; exact h.progress n (hlive' n hn) hb
      publishing := by rw [hentry]; exact hpub
      head := fun hd => ?_ }
  · rw [hentry] at hc ⊢
    rw [hpubs, hnext]
    exact h.committed n (fun k hk => by rw [hb] at hk; cases hk) hc
  · obtain ⟨hdone, hslot, hws⟩ := hhead hd
    rw [hpubs, hnext, hslot, hws]
    exact h.head hdone

/-- The place of a live slot is not that of a published one that is still in the ring. -/
theorem mod_ne {e : ℕ × List (CellAddr × Word)} (hn : x.live = some n) (he : e ∈ σ.pubs)
    (hrecent : σ.gNext ≤ e.1 + kLogSlots) : e.1 % kLogSlots ≠ n % kLogSlots := by
  obtain ⟨hnext, hlt⟩ := h.fresh n hn
  intro hmod
  have := hlt e he
  have := eq_of_near (m := e.1) (n := n) (by omega) (by omega) hmod
  omega

theorem claim (hp : x.pc.phase = .claim) :
    Ring { σ with gNext := σ.gNext + 1 } { x with pc := .beginTag σ.gNext } where
  sorted := h.sorted
  nodup := h.nodup
  below e he := Nat.lt_succ_of_lt (h.below e he)
  fresh n hn := by
    obtain rfl : σ.gNext = n := Option.some.inj hn
    exact ⟨rfl, h.below⟩
  published e he hrecent := h.published e he (Nat.le_of_succ_le hrecent)
  committed n hn hc := by
    obtain ⟨e, he, hmod, hrecent, hholds⟩ := h.committed n
      (fun k hk => by rw [hp] at hk; cases hk) hc
    refine ⟨e, he, hmod, Nat.lt_of_le_of_ne hrecent fun heq => ?_, hholds⟩
    -- The entry that goes is the one whose place the new slot takes.
    refine hn σ.gNext rfl (hmod.symm.trans ?_)
    rw [heq, Nat.add_mod_right]
  tag n hn hne := absurd (congrArg Phase.tag (Option.some.inj hn)) hne
  progress n _ hb := by cases hb
  publishing := trivial
  head hd := by cases hd

theorem storeTag (hp : x.pc.phase = .tag n) :
    Ring (σ.setEntry n fun e => { e with tag := tagOf .cpp n }) { x with pc := .beginState n } := by
  have hn : x.live = some n := live_of_tag hp
  refine
    { sorted := h.sorted
      nodup := h.nodup
      below := h.below
      fresh := fun k hk => h.fresh k (hn.trans hk)
      published := fun e he hrecent => ?_
      committed := fun k hk hc => ?_
      tag := fun k hk _ => ?_
      progress := fun k _ hb => by cases hb
      publishing := trivial
      head := fun hd => by cases hd }
  · rw [Shared.entry_setEntry_of_ne (h.mod_ne hn he hrecent)]
    exact h.published e he hrecent
  · have hne := hk n rfl
    rw [Shared.entry_setEntry_of_ne hne] at hc ⊢
    exact h.committed k (fun j hj => by rw [hp] at hj; cases hj; exact hne) hc
  · obtain rfl : n = k := Option.some.inj hk
    rw [Shared.entry_setEntry]

theorem setEntry {f : LogEntry → LogEntry} (hn : x.live = some n)
    (hstart : ∀ k, x.pc.phase.begins = some k → k = n)
    (hlive : x'.live = some n ∨ x'.live = none) (hdone : x'.pc.phase ≠ .done)
    (hstate : (f (σ.entry n)).state ≠ .committed)
    (htag : x'.live = some n → (f (σ.entry n)).tag = tagOf .cpp n)
    (hprogress : x'.live = some n → (f (σ.entry n)).state = .progress)
    (hpub : x'.Publishing .cpp ((σ.setEntry n f).entry x'.slot)) : Ring (σ.setEntry n f) x' := by
  have hself : ∀ k, x'.live = some k → k = n ∧ x'.live = some n := by
    intro k hk
    rcases hlive with heq | hnone
    · exact ⟨Option.some.inj (hk.symm.trans heq), heq⟩
    · rw [hnone] at hk
      cases hk
  refine
    { sorted := h.sorted
      nodup := h.nodup
      below := h.below
      fresh := fun k hk => by rw [(hself k hk).1]; exact h.fresh n hn
      published := fun e he hrecent => ?_
      committed := fun k _ hc => ?_
      tag := fun k hk _ => ?_
      progress := fun k hk _ => ?_
      publishing := hpub
      head := fun hd => absurd hd hdone }
  · rw [Shared.entry_setEntry_of_ne (h.mod_ne hn he hrecent)]
    exact h.published e he hrecent
  · by_cases hmod : k % kLogSlots = n % kLogSlots
    · have hentry : (σ.setEntry n f).entry k = f (σ.entry n) :=
        (congrArg (σ.setEntry n f).gLog hmod).trans (Shared.entry_setEntry σ n f)
      rw [hentry] at hc
      exact absurd hc hstate
    · rw [Shared.entry_setEntry_of_ne hmod] at hc ⊢
      exact h.committed k (fun j hj => by rw [hstart j hj]; exact hmod) hc
  · obtain ⟨rfl, hk⟩ := hself k hk
    rw [Shared.entry_setEntry]
    exact htag hk
  · obtain ⟨rfl, hk⟩ := hself k hk
    rw [Shared.entry_setEntry]
    exact hprogress hk

theorem publish (hp : x.pc.phase = .decide) (hnodup : (x.writeSet.map Prod.fst).Nodup)
    (hholds : Holds .cpp (σ.entry x.slot) x.writeSet) (hp' : x'.pc.phase = .done)
    (hslot : x'.slot = x.slot) (hws : x'.writeSet = x.writeSet) : Ring (publish σ x) x' := by
  have hn : x.live = some x.slot := live_of_decide hp
  have hb : x.pc.phase.begins = none := by rw [hp]; rfl
  obtain ⟨hnext, hlt⟩ := h.fresh x.slot hn
  have hself : ∀ k, k % kLogSlots = x.slot % kLogSlots →
      (MVLog.publish σ x).entry k = { σ.entry x.slot with state := .committed } := fun k hk =>
    (congrArg (MVLog.publish σ x).gLog hk).trans (Function.update_self _ _ _)
  have hother : ∀ k, k % kLogSlots ≠ x.slot % kLogSlots →
      (MVLog.publish σ x).entry k = σ.entry k := fun k hk => Function.update_of_ne hk _ _
  have hdone : x'.live = none := live_of_done hp'
  refine
    { sorted := ?_
      nodup := List.forall_mem_cons.2 ⟨hnodup, h.nodup⟩
      below := List.forall_mem_cons.2 ⟨hnext.le, h.below⟩
      fresh := fun k hk => by rw [hdone] at hk; cases hk
      published := List.forall_mem_cons.2 ⟨fun _ => ?_, fun e he hrecent => ?_⟩
      committed := fun k _ hc => ?_
      tag := fun k hk => by rw [hdone] at hk; cases hk
      progress := fun k hk => by rw [hdone] at hk; cases hk
      publishing := publishing_of_ne (by rw [hp']; intro heq; cases heq) _
      head := fun _ => ⟨by rw [hslot]; exact hnext, σ.pubs, by rw [hslot, hws]; rfl⟩ }
  · refine List.pairwise_cons.2 ⟨fun k hk => ?_, h.sorted⟩
    obtain ⟨e, he, rfl⟩ := List.mem_map.1 hk
    exact hlt e he
  · rw [hself _ rfl]
    exact ⟨h.tag x.slot hn (by rw [hp]; intro heq; cases heq), rfl⟩
  · rw [hother _ (h.mod_ne hn he hrecent)]
    exact h.published e he hrecent
  · by_cases hmod : k % kLogSlots = x.slot % kLogSlots
    · rw [hself k hmod]
      exact ⟨_, List.mem_cons_self, hmod.symm, Nat.le_trans hnext.ge
        (Nat.add_le_add_left (by decide) _), hholds.congr rfl rfl rfl rfl⟩
    · rw [hother k hmod] at hc ⊢
      obtain ⟨e, he, hrest⟩ := h.committed k (fun j hj => by rw [hb] at hj; cases hj) hc
      exact ⟨e, List.mem_cons_of_mem _ he, hrest⟩

end Ring

/-- Version `p` is one that a fold which is at slot `n` still comes to. -/
def ToFold (σ : Shared T) (x : Tx) (n p : ℕ) : Prop :=
  n ≤ p ∧ p < x.slot ∧ σ.gNext ≤ p + kLogSlots

/-- The fold is at the entry of slot `n`, in which it has found version `e`, with these entries
to go. -/
structure FoldingOf (m₀ : CellAddr → Word) (σ : Shared T) (x : Tx) (n : ℕ)
    (e : ℕ × List (CellAddr × Word)) (rest : List (CellAddr × Word)) : Prop where
  mem : e ∈ σ.pubs
  le : n ≤ e.1
  recent : σ.gNext ≤ e.1 + kLogSlots
  holds : Holds .cpp (σ.entry n) e.2
  sub : rest <:+ e.2
  pending : Pending σ.mem m₀ σ.pubs fun a p =>
    ToFold σ x (n + 1) p ∨ p = e.1 ∧ (rest.lookup a).isSome

def SeqMem (m₀ : CellAddr → Word) (σ : Shared T) (x : Tx) : Prop :=
  match x.pc with
  | .foldTag n | .foldState n => n < x.slot ∧ Pending σ.mem m₀ σ.pubs fun _ => ToFold σ x n
  | .foldCount n => ∃ e, FoldingOf m₀ σ x n e e.2
  | .foldAddr n len i =>
      ∃ e, FoldingOf m₀ σ x n e (e.2.drop i) ∧ len = e.2.length ∧ i < inlineLen .cpp len
  | .foldVal n len i a =>
      ∃ e w, FoldingOf m₀ σ x n e (e.2.drop i) ∧ len = e.2.length ∧ i < inlineLen .cpp len ∧
        e.2[i]? = some w ∧ w.1 = a
  | .foldMem n len i a v =>
      ∃ e, FoldingOf m₀ σ x n e (e.2.drop i) ∧ len = e.2.length ∧ i < inlineLen .cpp len ∧
        e.2[i]? = some (a, v)
  | .foldOverflow n => ∃ e, FoldingOf m₀ σ x n e e.2 ∧ kMaxInlineWs < e.2.length
  | .foldRest n rest => ∃ e, FoldingOf m₀ σ x n e rest
  | _ => MemInv .cpp m₀ σ.store x

/-- The committed transactions leave the memory of what was published. -/
structure Left (m₀ : CellAddr → Word) (σ : Shared T) (x : Tx) : Prop where
  leaves : memAt m₀ σ.history σ.turn = value m₀ σ.pubs
  later : ∀ n, σ.turn < n → σ.history n = none
  empty : x.pc.phase = .decide → 0 < σ.turn ∧ σ.history σ.turn = none

structure SeqInv (m₀ : CellAddr → Word) (σ : Shared T) (x : Tx) : Prop where
  ring : Ring σ x
  memory : SeqMem m₀ σ x
  left : Left m₀ σ x
  buffering : Buffering x

structure SameLog (σ σ' : Shared T) : Prop where
  gNext : σ'.gNext = σ.gNext
  gLog : σ'.gLog = σ.gLog
  pubs : σ'.pubs = σ.pubs
  history : σ'.history = σ.history
  turn : σ'.turn = σ.turn

theorem SameLog.refl (σ : Shared T) : SameLog σ σ := ⟨rfl, rfl, rfl, rfl, rfl⟩

theorem Left.goto (h : Left m₀ σ x) (hpubs : σ'.pubs = σ.pubs) (hhist : σ'.history = σ.history)
    (hturn : σ'.turn = σ.turn) (hdecide : x'.pc.phase = .decide → x.pc.phase = .decide) :
    Left m₀ σ' x' where
  leaves := by rw [hhist, hturn, hpubs]; exact h.leaves
  later := by rw [hhist, hturn]; exact h.later
  empty hd := by rw [hhist, hturn]; exact h.empty (hdecide hd)

theorem ne_of_not_holding {p : Phase} (h : p.holding = false) : p ≠ .decide ∧ p ≠ .done := by
  cases p <;> simp_all [Phase.holding]

theorem seqMem_iff (hd : x.pc.phase ≠ .decide) (hd' : x.pc.phase ≠ .done) :
    SeqMem m₀ σ x ↔ σ.mem = value m₀ σ.pubs := by
  unfold SeqMem
  split
  all_goals first
    | (next heq => exact absurd (by rw [heq]; rfl) hd')
    | skip
  unfold MemInv
  split
  all_goals first
    | exact .rfl
    | (next heq => exact absurd (by rw [heq]; rfl) hd')
    | (next heq => exact absurd (by rw [heq]; rfl) hd)

namespace SeqInv

variable (h : SeqInv m₀ σ x)
include h

theorem goto (hσ : SameLog σ σ') (hb : x.pc.phase.begins = none)
    (hlive : x'.live = x.live ∨ x'.live = none) (hpub : x'.Publishing .cpp (σ.entry x'.slot))
    (hhead : x'.pc.phase = .done →
      x.pc.phase = .done ∧ x'.slot = x.slot ∧ x'.writeSet = x.writeSet)
    (hdecide : x'.pc.phase = .decide → x.pc.phase = .decide) (hmem : SeqMem m₀ σ' x')
    (hbuf : Buffering x') : SeqInv m₀ σ' x' :=
  ⟨h.ring.goto hσ.gNext hσ.gLog hσ.pubs hb hlive hpub hhead, hmem,
    h.left.goto hσ.pubs hσ.history hσ.turn hdecide, hbuf⟩

theorem quiet {p q : Phase} (hp : x.pc.phase = p) (hq : x'.pc.phase = q) (hb : p.begins = none)
    (hph : p.holding = false) (hqh : q.holding = false)
    (hlive : x'.live = x.live ∨ x'.live = none) (hbuf : Buffering x') : SeqInv m₀ σ x' := by
  subst hp hq
  obtain ⟨hpd, hpd'⟩ := ne_of_not_holding hph
  obtain ⟨hqd, hqd'⟩ := ne_of_not_holding hqh
  exact h.goto (.refl _) hb hlive (publishing_of_ne hqd _) (fun hd => absurd hd hqd')
    (fun hd => absurd hd hqd) ((seqMem_iff hqd hqd').2 ((seqMem_iff hpd hpd').1 h.memory)) hbuf

theorem pass {p q : Pc} (hpc : x.pc = p) (hb : p.phase.begins = none)
    (hph : p.phase.holding = false) (hqh : q.phase.holding = false) (hreading : q.reading = none)
    (hlive : ({ x with pc := q } : Tx).live = ({ x with pc := p } : Tx).live ∨
      ({ x with pc := q } : Tx).live = none) : SeqInv m₀ σ { x with pc := q } := by
  subst hpc
  exact h.quiet rfl rfl hb hph hqh hlive (h.buffering.goto rfl rfl rfl (.inl hreading))

theorem done (hp : x.pc.phase = .done) (hx : GoesOn x x') (hσ : SameLog σ σ')
    (hmem : SeqMem m₀ σ' x') : SeqInv m₀ σ' x' := by
  have hq := hx.phase
  obtain ⟨q, rfl⟩ := hx.same
  have hnot : q.phase ≠ .decide := by simp [hq]
  exact h.goto hσ (by rw [hp]; rfl) (.inr (live_of_done hq)) (publishing_of_ne hnot _)
    (fun _ => ⟨hp, rfl, rfl⟩) (fun hd => absurd hd hnot) hmem
    (h.buffering.goto rfl rfl rfl (.inl (reading_of_phase (by simp [hq]))))

end SeqInv

section Fold

variable {e : ℕ × List (CellAddr × Word)} {rest : List (CellAddr × Word)}

theorem seqMem_foldFrom (h : Pending σ.mem m₀ σ.pubs fun _ => ToFold σ x n) :
    SeqMem m₀ σ (x.foldFrom n) := by
  unfold Tx.foldFrom
  split
  · next hlt => exact ⟨hlt, h⟩
  · next hge =>
      refine h.done fun a p htodo => ?_
      have := htodo.1
      have := htodo.2.1
      omega

theorem seqMem_leave (h : FoldingOf m₀ σ x n e []) : SeqMem m₀ σ (x.foldFrom (n + 1)) := by
  refine seqMem_foldFrom (h.pending.imp fun a p v _ htodo => ?_)
  rcases htodo with hlater | ⟨-, hnil⟩
  · exact hlater
  · cases hnil

theorem FoldingOf.goto {p : Pc} (h : FoldingOf m₀ σ x n e rest) :
    FoldingOf m₀ σ { x with pc := p } n e rest :=
  ⟨h.mem, h.le, h.recent, h.holds, h.sub, h.pending⟩

theorem seqMem_foldRestFrom (h : FoldingOf m₀ σ x n e rest) :
    SeqMem m₀ σ (x.foldRestFrom n rest) := by
  unfold Tx.foldRestFrom
  split
  · next hnil => exact seqMem_leave (hnil ▸ h)
  · exact ⟨e, h.goto⟩

theorem seqMem_foldInline {i : ℕ} (h : FoldingOf m₀ σ x n e (e.2.drop i)) :
    SeqMem m₀ σ (x.foldInline .cpp n e.2.length i) := by
  unfold Tx.foldInline
  rw [nextInline_eq]
  by_cases hlt : i < inlineLen .cpp e.2.length
  · rw [if_pos hlt]
    exact ⟨e, h.goto, rfl, hlt⟩
  · rw [if_neg hlt]
    by_cases hlong : kMaxInlineWs < e.2.length
    · rw [if_pos hlong]
      refine ⟨e, ⟨h.mem, h.le, h.recent, h.holds, List.suffix_rfl,
        h.pending.imp fun a p v _ htodo => htodo.imp_right fun ⟨heq, ha⟩ => ⟨heq, ?_⟩⟩, hlong⟩
      obtain ⟨w, hw, hwa⟩ := List.lookup_isSome_iff.1 ha
      exact List.lookup_isSome_iff.2 ⟨w, h.sub.subset hw, hwa⟩
    · rw [if_neg hlong]
      have hnil : e.2.drop i = [] := by
        rw [inlineLen_of_le (Nat.not_lt.1 hlong)] at hlt
        exact List.drop_eq_nil_of_le (Nat.not_lt.1 hlt)
      exact seqMem_leave (hnil ▸ h)

variable (hring : Ring σ x)
include hring

/-- The entry of slot `n` is not that of a version that is still to be folded. -/
theorem pending_skip (h : Pending σ.mem m₀ σ.pubs fun _ => ToFold σ x n)
    (hno : (σ.entry n).tag = tagOf .cpp n → (σ.entry n).state ≠ .committed) :
    Pending σ.mem m₀ σ.pubs fun _ => ToFold σ x (n + 1) := by
  refine h.imp fun a p v hlatest ⟨hle, hlt, hrecent⟩ => ⟨?_, hlt, hrecent⟩
  rcases Nat.eq_or_lt_of_le hle with rfl | hgt
  · obtain ⟨ws, hmem, -⟩ := mem_of_latest hlatest
    obtain ⟨htag, hstate⟩ := hring.published _ hmem hrecent
    exact absurd hstate (hno htag)
  · exact hgt

variable (hp : x.pc.phase = .done)
include hp

theorem foldingOf_enter (hlt : n < x.slot) (hstate : (σ.entry n).state = .committed)
    (h : Pending σ.mem m₀ σ.pubs fun _ => ToFold σ x n) : ∃ e, FoldingOf m₀ σ x n e e.2 := by
  obtain ⟨e, he, hmod, hrecent, hholds⟩ := hring.committed n
    (fun k hk => by rw [hp] at hk; cases hk) hstate
  have hnext := (hring.head hp).1
  have hbelow := hring.below e he
  have hle : n ≤ e.1 := by
    unfold kLogSlots at hmod hrecent
    omega
  refine ⟨e, he, hle, hrecent, hholds, List.suffix_rfl,
    h.imp fun a p v hlatest ⟨hnp, hps, hprecent⟩ => ?_⟩
  rcases Nat.eq_or_lt_of_le hnp with rfl | hgt
  · -- Two versions at one place of the ring are the same one.
    obtain rfl : e.1 = n := eq_of_near (by omega) (by omega) hmod
    obtain ⟨ws, hmem, hlook⟩ := mem_of_latest hlatest
    obtain rfl := eq_of_mem hring.sorted he hmem
    exact .inr ⟨rfl, by rw [hlook]; rfl⟩
  · exact .inl ⟨hgt, hps, hprecent⟩

/-- The store of the next entry, of a cell that the committer has not written. -/
theorem foldingOf_store {w : CellAddr × Word} (happart : x.writeSet.lookup w.1 = none)
    (h : FoldingOf m₀ σ x n e (w :: rest)) :
    FoldingOf m₀ { σ with mem := Function.update σ.mem w.1 w.2 } x n e rest := by
  obtain ⟨hnext, vs, hhead⟩ := hring.head hp
  have hlook : e.2.lookup w.1 = some w.2 :=
    lookup_of_mem (hring.nodup e h.mem) (h.sub.subset List.mem_cons_self)
  refine ⟨h.mem, h.le, h.recent, h.holds, (List.suffix_cons w rest).trans h.sub,
    h.pending.store hring.sorted h.mem hlook (fun b p hb htodo => ?_) fun p v hlatest hgt => ?_⟩
  · rwa [lookup_cons_eq, if_neg hb] at htodo
  · -- A newer version is older than the committer's and still in the ring.
    rw [hhead, latest_cons_of_none happart] at hlatest
    obtain ⟨ws, hmem, -⟩ := mem_of_latest hlatest
    have hsorted := hring.sorted
    rw [hhead, List.map_cons, List.pairwise_cons] at hsorted
    have hlt : p < x.slot := hsorted.1 p (List.mem_map_of_mem hmem)
    have hle := h.le
    have hrecent := h.recent
    exact .inl ⟨by omega, hlt, by show σ.gNext ≤ _; omega⟩

end Fold

end MVLog
