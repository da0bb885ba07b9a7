import ClangTM.MVLog.Slots

/-!
# A thread of the multi-version log that runs alone

What the loops of `commit` and `read_word` come to when no other thread moves: the wait for
slots that are not in progress, the publication of one cell, the fold, and the read of a cell
whose newest version is below the watermark. These lemmas put together the long runs in which
a reclamation takes place.
-/

namespace MVLog

open Serial Transition

variable {T : Type} {port : Port} {t : T} {σ : Shared T} {x : Tx} {m n : ℕ}

def alone (port : Port) (t : T) (p : Shared T × Tx) : Option (Shared T × Tx) :=
  next port t p.1 p.2 .tau

section Run

variable [DecidableEq T] {s₀ s : Threads (Shared T) Tx T} {σ' : Shared T} {x' : Tx}

theorem run_call (c : TmCall CellAddr) (hr : Run (step port) anyStep s₀ (s.put t σ x))
    (hnext : next port t σ x c = some (σ', x')) :
    Run (step port) anyStep s₀ (s.put t σ' x') :=
  Threads.run_put_of_next hr hnext

theorem run_alone (hr : Run (step port) anyStep s₀ (s.put t σ x))
    (h : Reaches (alone port t) (σ, x) (σ', x')) :
    Run (step port) anyStep s₀ (s.put t σ' x') :=
  Threads.run_put_of_reaches (c := TmCall.tau) hr h

end Run

theorem reaches_waitFrom (hres : ∀ k, n ≤ k → k < x.slot → (σ.entry k).state ≠ .progress) :
    Reaches (alone port t) (σ, x.waitFrom n) (σ, { x with pc := .lock }) := by
  induction hd : x.slot - n generalizing n with
  | zero =>
      have hge : ¬n < x.slot := by omega
      rw [Tx.waitFrom, if_neg hge]
      exact .refl
  | succ d ih =>
      have hlt : n < x.slot := by omega
      have hnext := ih (n := n + 1) (fun k hk => hres k (by omega)) (by omega)
      refine .head ((σ, x.waitFrom (n + 1))) ?_ hnext
      rw [Tx.waitFrom, if_pos hlt]
      show some (σ, if (σ.entry n).state = .progress then _ else _) = _
      rw [if_neg (hres n le_rfl hlt)]
      rfl

theorem reaches_lock (hres : ∀ k, σ.gWm ≤ k → k < x.slot → (σ.entry k).state ≠ .progress) :
    Reaches (alone port t) (σ, { x with pc := .commitWm })
      (σ, { x with pc := .lock, win := σ.gWm }) :=
  .head ((σ, { x with win := σ.gWm }.waitFrom σ.gWm)) rfl
    (reaches_waitFrom (x := { x with win := σ.gWm }) hres)

theorem reaches_foldFrom (hle : n ≤ m) (hm : m ≤ x.slot)
    (hskip : ∀ k, n ≤ k → k < m →
      (σ.entry k).state ≠ .committed ∨ (σ.entry k).wsCount = 0) :
    Reaches (alone port t) (σ, x.foldFrom n) (σ, x.foldFrom m) := by
  induction hd : m - n generalizing n with
  | zero =>
      obtain rfl : n = m := by omega
      exact .refl
  | succ d ih =>
      have hlt : n < m := by omega
      have hnext := ih (n := n + 1) hlt (fun k hk => hskip k (by omega)) (by omega)
      have hstart : x.foldFrom n = { x with pc := .foldTag n } := by
        rw [Tx.foldFrom, if_pos (by omega)]
      have hend : ∀ p, ({ x with pc := p } : Tx).foldFrom (n + 1) =
          x.foldFrom (n + 1) := fun _ => rfl
      by_cases htag : (σ.entry n).tag = tagOf port n
      · refine .head ((σ, { x with pc := .foldState n })) ?_ ?_
        · rw [hstart]
          show some (σ, if (σ.entry n).tag = tagOf port n then _ else _) = _
          rw [if_pos htag]
        · by_cases hstate : (σ.entry n).state = .committed
          · refine .head ((σ, { x with pc := .foldCount n })) ?_
                (.head ((σ, x.foldFrom (n + 1))) ?_ hnext)
            · show some (σ, if (σ.entry n).state = .committed then _ else _) = _
              rw [if_pos hstate]
            · show some (σ, Tx.foldInline port _ n (σ.entry n).wsCount 0) = _
              rw [(hskip n le_rfl hlt).resolve_left (not_not_intro hstate)]
              cases port <;> rfl
          · refine .head ((σ, x.foldFrom (n + 1))) ?_ hnext
            show some (σ, if (σ.entry n).state = .committed then _ else _) = _
            rw [if_neg hstate, hend]
      · refine .head ((σ, x.foldFrom (n + 1))) ?_ hnext
        rw [hstart]
        show some (σ, if (σ.entry n).tag = tagOf port n then _ else _) = _
        rw [if_neg htag, hend]

theorem reaches_foldOne {a : CellAddr} {v : Word} (hlt : n < x.slot)
    (htag : (σ.entry n).tag = tagOf port n) (hstate : (σ.entry n).state = .committed)
    (hcount : (σ.entry n).wsCount = 1) (haddr : (σ.entry n).wsAddr 0 = a)
    (hval : (σ.entry n).wsVal 0 = v) (hskip : x.skips port a = false) :
    Reaches (alone port t) (σ, x.foldFrom n)
      ({ σ with mem := Function.update σ.mem a v }, x.foldFrom (n + 1)) := by
  refine .head ((σ, { x with pc := .foldState n })) ?_
    (.head ((σ, { x with pc := .foldCount n })) ?_
      (.head ((σ, { x with pc := .foldAddr n 1 0 })) ?_
        (.head ((σ, { x with pc := .foldVal n 1 0 a })) ?_
          (.head ((σ, { x with pc := .foldMem n 1 0 a v })) ?_ (.tail .refl ?_)))))
  · rw [Tx.foldFrom, if_pos hlt]
    show some (σ, if (σ.entry n).tag = tagOf port n then _ else _) = _
    rw [if_pos htag]
  · show some (σ, if (σ.entry n).state = .committed then _ else _) = _
    rw [if_pos hstate]
  · show some (σ, Tx.foldInline port _ n (σ.entry n).wsCount 0) = _
    rw [hcount]
    cases port <;> rfl
  · show some (σ, ({ x with pc := .foldVal n 1 0 ((σ.entry n).wsAddr 0) } : Tx)) = _
    rw [haddr]
  · show some (σ, ({ x with pc := .foldMem n 1 0 a ((σ.entry n).wsVal 0) } : Tx)) = _
    rw [hval]
  · have hskip' : Tx.skips port { x with pc := .foldMem n 1 0 a v } a = false := hskip
    show some (foldStore port σ _ a v, _) = _
    rw [foldStore, hskip']
    cases port <;> rfl

/-- The commit of a transaction that has written one cell, from the lock to the
reclamation. -/
theorem reaches_publish {a : CellAddr} {v : Word} (hlock : σ.gCommitLock = false)
    (hread : x.readSet = []) (hwrite : x.writeSet = [(a, v)]) :
    ∃ σ', Reaches (alone port t) (σ, { x with pc := .lock }) (σ', { x with pc := .dueWm }) ∧
      σ'.gNext = σ.gNext ∧ σ'.gWm = σ.gWm ∧ σ'.turn = σ.turn + 1 ∧
      σ'.history = enter σ.history (σ.turn + 1) x.ops ∧
      σ'.mem = Function.update σ.mem a v ∧
      σ'.gIndex = Function.update σ.gIndex a (some x.slot) ∧
      (σ'.entry x.slot).state = .committed ∧
      ∀ k, k % kLogSlots ≠ x.slot % kLogSlots → σ'.entry k = σ.entry k := by
  obtain ⟨pc, slot, active, readSet, writeSet, win, committed, ops⟩ := x
  cases hread
  cases hwrite
  have hacq : Reaches (alone port t) (σ, (Tx.mk .lock slot active [] [(a, v)] win committed ops))
      ({ σ with gCommitLock := true, holder := some t, turn := σ.turn + 1 },
        Tx.mk .resetCount slot active [] [(a, v)] win committed ops) := by
    refine .tail .refl ?_
    show some (acquire port t σ _) = _
    rw [acquire, hlock]
    rfl
  have hself := fun (f : ℕ → LogEntry) (e : LogEntry) =>
    Function.update_self (slot % kLogSlots) e f
  cases port
  all_goals
    refine ⟨_, hacq.trans (.of_iterate 7 rfl), rfl, rfl, rfl, rfl, rfl, rfl,
      (congrArg LogEntry.state (hself _ _)).trans rfl, fun k hk => ?_⟩
    have hother := fun (f : ℕ → LogEntry) (e : LogEntry) => Function.update_of_ne hk e f
    exact (hother _ _).trans ((hother _ _).trans ((hother _ _).trans
      ((hother _ _).trans (hother _ _))))

/-- The commit of a transaction that has neither read nor written, from the lock on. -/
theorem reaches_empty (hlock : σ.gCommitLock = false) (hread : x.readSet = [])
    (hwrite : x.writeSet = []) :
    ∃ σ', Reaches (alone port t) (σ, { x with pc := .lock }) (σ', Tx.finish (some true)) ∧
      σ'.gNext = σ.gNext ∧ σ'.gWm = σ.gWm ∧ σ'.gCommitLock = false ∧
      (σ'.entry x.slot).state = .committed ∧ (σ'.entry x.slot).wsCount = 0 ∧
      ∀ k, k % kLogSlots ≠ x.slot % kLogSlots → σ'.entry k = σ.entry k := by
  obtain ⟨pc, slot, active, readSet, writeSet, win, committed, ops⟩ := x
  cases hread
  cases hwrite
  have hacq : Reaches (alone port t) (σ, (Tx.mk .lock slot active [] [] win committed ops))
      ({ σ with gCommitLock := true, holder := some t, turn := σ.turn + 1 },
        Tx.mk .resetCount slot active [] [] win committed ops) := by
    refine .tail .refl ?_
    show some (acquire port t σ _) = _
    rw [acquire, hlock]
    rfl
  have hself := fun (f : ℕ → LogEntry) (e : LogEntry) =>
    Function.update_self (slot % kLogSlots) e f
  refine ⟨_, hacq.trans (.of_iterate 3 rfl), rfl, rfl, rfl,
    (congrArg LogEntry.state (hself _ _)).trans rfl, ?_, fun k hk => ?_⟩
  · exact (congrArg LogEntry.wsCount (hself _ _)).trans (congrArg LogEntry.wsCount (hself _ _))
  · have hother := fun (f : ℕ → LogEntry) (e : LogEntry) => Function.update_of_ne hk e f
    exact (hother _ _).trans (hother _ _)

theorem reaches_clear {i : ℕ} (hi : i < bloomWords) : ∃ d,
    Reaches (alone port t) (σ, { x with pc := .clear i })
      ({ σ with gDirty := d }, x.dirtyFrom x.writeSet) := by
  induction hd : bloomWords - 1 - i generalizing i σ with
  | zero =>
      refine ⟨fun j => if wordOf port j = i then false else σ.gDirty j, .tail .refl ?_⟩
      show some (_, if i + 1 < bloomWords then _ else _) = _
      rw [if_neg (by omega)]
      rfl
  | succ d ih =>
      obtain ⟨d', hreach⟩ := ih (i := i + 1)
        (σ := { σ with gDirty := fun j => if wordOf port j = i then false else σ.gDirty j })
        (by omega) (by omega)
      refine ⟨d', .head _ ?_ hreach⟩
      show some (_, if i + 1 < bloomWords then _ else _) = _
      rw [if_pos (by omega)]

/-- A read of a cell whose newest version is below the watermark loads memory, whatever the
Bloom filter says. -/
theorem reaches_read {a : CellAddr} {p : ℕ} (hindex : σ.gIndex a = some p) (hp : p < σ.gWm) :
    Reaches (alone .rust t) (σ, { x with pc := .bloomFirst a }) (σ, x.observe a (σ.mem a)) := by
  have hmem : Reaches (alone .rust t) (σ, { x with pc := .readMem a })
      (σ, x.observe a (σ.mem a)) := .tail .refl rfl
  by_cases hfirst : σ.gDirty (probes .rust a).1 = true
  · refine .head ((σ, { x with pc := .bloomSecond a })) ?_ ?_
    · show some (σ, ({ x with pc := if σ.gDirty (probes .rust a).1 then _ else _ } : Tx)) = _
      rw [if_pos hfirst]
    · by_cases hsecond : σ.gDirty (probes .rust a).2 = true
      · refine .head ((σ, { x with pc := .resolve a .read .loadWm })) ?_
          (.head ((σ, { x with pc := .resolve a .read (.lookup σ.gWm) })) rfl
            (.head ((σ, { x with pc := .resolve a .read .mem })) ?_ (.tail .refl rfl)))
        · show some (σ, ({ x with pc := if σ.gDirty (probes .rust a).2 then _ else _ } : Tx)) = _
          rw [if_pos hsecond]
          rfl
        · show some (σ, ({ x with
            pc := .resolve a .read (.found (σ.gIndex a) σ.gWm) } : Tx)) = _
          rw [hindex, Resolve.found, if_pos hp]
      · refine .head ((σ, { x with pc := .readMem a })) ?_ hmem
        show some (σ, ({ x with pc := if σ.gDirty (probes .rust a).2 then _ else _ } : Tx)) = _
        rw [if_neg hsecond]
  · refine .head ((σ, { x with pc := .readMem a })) ?_ hmem
    show some (σ, ({ x with pc := if σ.gDirty (probes .rust a).1 then _ else _ } : Tx)) = _
    rw [if_neg hfirst]

end MVLog
