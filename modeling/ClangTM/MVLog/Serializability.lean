import Mathlib.Data.Fintype.Basic
import ClangTM.MVLog.Alone
import ClangTM.MVLog.Order

/-!
# When the Rust multi-version log is serializable

Every commit of `runtime/mvlog`, read-only ones included, compares its read set with what
`resolve` finds under the commit lock. In orderly runs `resolve` finds the values that the
transactions before it in the order of the commit lock have left, so the committed
transactions are a serial run in that order.

In other runs they are not. A slot that is claimed and not tagged yet is passed over by the
wait, so the transactions can publish in another order than that of their slots; the
reclamation folds them in the order of their slots, which leaves in memory the value of a
transaction that another one has overwritten.
-/

namespace MVLog

open Serial Transition

section Run

variable {T : Type} [DecidableEq T] {s : Threads (Shared T) Tx T}

end Run

section Regress

variable {s : Threads (Shared (Fin 3)) Tx (Fin 3)} {n : ℕ}

/-- Slot 2 has published the value 2 for the first cell and then slot 1 the value 1; thread 2
is in the body of a transaction with slot `n`, all slots from 3 on before it being aborted. -/
structure Crossed (s : Threads (Shared (Fin 3)) Tx (Fin 3)) (n : ℕ) : Prop where
  idle : s.tx 0 = Tx.finish (some true)
  tx : s.tx 2 = { pc := .body, slot := n, active := true }
  gNext : s.shared.gNext = n + 1
  gWm : s.shared.gWm = 0
  lock : s.shared.gCommitLock = false
  turn : s.shared.turn = 2
  first : s.shared.history 1 = some [.write firstCell 2]
  second : s.shared.history 2 = some [.write firstCell 1]
  index : s.shared.gIndex firstCell = some 1
  le : 3 ≤ n
  free : (s.shared.entry 0).state = .free
  entries : ∀ k, k = 1 ∨ k = 2 →
    (s.shared.entry k).tag = k ∧ (s.shared.entry k).state = .committed ∧
      (s.shared.entry k).wsCount = 1 ∧ (s.shared.entry k).wsAddr 0 = firstCell ∧
      (s.shared.entry k).wsVal 0 = BitVec.ofNat 64 k
  aborted : ∀ k, 3 ≤ k → k < n → (s.shared.entry k).state = .aborted

theorem Crossed.body (h : Crossed s n) :
    Run (step .rust) anyStep s
      (s.put 2 s.shared { pc := .body, slot := n, active := true }) := by
  rw [← h.tx, Threads.put_self]
  exact .refl

theorem Crossed.resolved {n k : ℕ} (h : Crossed s n) (hk : k < n) :
    (s.shared.entry k).state ≠ .progress := by
  intro hprog
  rcases Nat.lt_or_ge k 3 with hlt | hge
  · obtain rfl | hpos := Nat.eq_zero_or_pos k
    · cases h.free.symm.trans hprog
    · cases (h.entries k (by omega)).2.1.symm.trans hprog
  · cases (h.aborted k hge hk).symm.trans hprog

theorem entry_setEntry_of_lt {T : Type} {σ : Shared T} {k n : ℕ} {f : LogEntry → LogEntry}
    (hk : k < kLogSlots) (hn : n < kLogSlots) (hne : k ≠ n) :
    (σ.setEntry n f).entry k = σ.entry k :=
  Shared.entry_setEntry_of_ne (by rwa [Nat.mod_eq_of_lt hk, Nat.mod_eq_of_lt hn])

theorem entry_gNext {T : Type} {σ : Shared T} {g k : ℕ} :
    ({ σ with gNext := g } : Shared T).entry k = σ.entry k := rfl

def crossing : List (Fin 3 × TmCall CellAddr) :=
  let alone (t : Fin 3) (c : TmCall CellAddr) (n : ℕ) : List (Fin 3 × TmCall CellAddr) :=
    (t, c) :: List.replicate n (t, .tau)
  alone 0 .begin 1 ++ alone 1 .begin 3 ++ alone 1 (.write firstCell 2) 0 ++
    alone 1 .commit 15 ++ List.replicate 2 (0, .tau) ++ alone 0 (.write firstCell 1) 0 ++
    alone 0 .commit 14 ++ alone 2 .begin 3

/-- Thread 0 claims slot 1 and stops; thread 1 publishes slot 2; thread 0 publishes slot 1;
thread 2 begins. -/
theorem crossed_three : ∃ s, Run (step .rust) anyStep (init (Fin 3) fun _ => 0) s ∧
    Crossed s 3 := by
  obtain ⟨s, hs, hc⟩ : ∃ s,
      exec (step .rust) anyStep (init (Fin 3) fun _ => 0) crossing = some s ∧
      Crossed s 3 := by
    refine ⟨_, rfl, rfl, rfl, rfl, rfl, rfl, rfl, rfl, rfl, rfl,
      le_rfl, rfl, ?_, fun k _ _ => by omega⟩
    rintro k (rfl | rfl)
    · exact ⟨rfl, rfl, rfl, rfl, rfl⟩
    · exact ⟨rfl, rfl, rfl, rfl, rfl⟩
  exact ⟨s, run_of_exec hs, hc⟩

theorem Crossed.again (h : Crossed s n) (hn : n + 1 < kLogSlots) :
    ∃ s', Run (step .rust) anyStep s s' ∧ Crossed s' (n + 1) := by
  have hclaim : Reaches (alone .rust (2 : Fin 3))
      (s.shared, { pc := .beginMark, slot := n, active := true })
      (({ s.shared.setEntry n fun e => { e with state := .aborted } with
          gNext := s.shared.gNext + 1 }.setEntry s.shared.gNext fun e =>
            { e with tag := s.shared.gNext }).setEntry s.shared.gNext fun e =>
              { e with state := .progress },
        Tx.begin s.shared.gNext) := .of_iterate 4 rfl
  have hrun := run_alone (run_call .begin h.body rfl) hclaim
  rw [h.gNext] at hrun
  refine ⟨_, hrun, ?_⟩
  -- The other entries are as they were.
  have hentry : ∀ k, k < n + 1 → k ≠ n →
      (({ s.shared.setEntry n fun e => { e with state := .aborted } with
          gNext := n + 1 + 1 }.setEntry (n + 1) fun e =>
            { e with tag := n + 1 }).setEntry (n + 1) fun e =>
              { e with state := .progress }).entry k = s.shared.entry k := by
    intro k hk hne
    rw [entry_setEntry_of_lt (by omega) hn (by omega),
      entry_setEntry_of_lt (by omega) hn (by omega), entry_gNext]
    exact entry_setEntry_of_lt (by omega) (by omega) hne
  have h3 : 3 ≤ n := h.le
  refine
    { idle := h.idle
      tx := rfl
      gNext := rfl
      gWm := h.gWm
      lock := h.lock
      turn := h.turn
      first := h.first
      second := h.second
      index := h.index
      le := by omega
      free := by rw [Threads.put_shared, hentry 0 (by omega) (by omega)]; exact h.free
      entries := fun k hk => ?_
      aborted := fun k hk hlt => ?_ }
  · rw [Threads.put_shared, hentry k (by omega) (by omega)]
    exact h.entries k hk
  · rw [Threads.put_shared]
    by_cases hkn : k = n
    · subst hkn
      rw [entry_setEntry_of_lt (by omega) hn (by omega),
        entry_setEntry_of_lt (by omega) hn (by omega), entry_gNext, Shared.entry_setEntry]
    · rw [hentry k (by omega) hkn]
      exact h.aborted k hk (by omega)

theorem crossed_of_le (k : ℕ) (hk : 3 + k < kLogSlots) :
    ∃ s, Run (step .rust) anyStep (init (Fin 3) fun _ => 0) s ∧ Crossed s (3 + k) := by
  induction k with
  | zero => exact crossed_three
  | succ k ih =>
      obtain ⟨s, hs, hc⟩ := ih (by omega)
      obtain ⟨s', hs', hc'⟩ := hc.again hk
      exact ⟨s', hs.trans hs', hc'⟩

/-- The third transaction has folded the log and has left the value of slot 2 in the first
cell. -/
structure Regressed (s : Threads (Shared (Fin 3)) Tx (Fin 3)) (n : ℕ) : Prop where
  idle : s.tx 0 = Tx.finish (some true)
  gNext : s.shared.gNext = n + 1
  gWm : s.shared.gWm = n
  lock : s.shared.gCommitLock = false
  turn : s.shared.turn = 3
  first : s.shared.history 1 = some [.write firstCell 2]
  second : s.shared.history 2 = some [.write firstCell 1]
  third : s.shared.history 3 = some [.write secondCell 1]
  index : s.shared.gIndex firstCell = some 1
  state : (s.shared.entry n).state = .committed
  mem : s.shared.mem firstCell = 2
  lt : 1 < n

/-- The third transaction writes the second cell and commits; the window is long enough for a
fold. -/
theorem Crossed.fold (h : Crossed s n) (hdue : kReclaimThreshold < n) (hn : n < kLogSlots) :
    ∃ s', Run (step .rust) anyStep s s' ∧ Regressed s' n := by
  have h3 := h.le
  let x : Tx := { slot := n, active := true, writeSet := [(secondCell, 1)],
                  ops := [.write secondCell 1] }
  have hcall : Run (step .rust) anyStep s (s.put 2 s.shared { x with pc := .commitWm }) :=
    run_call .commit (run_call (.write secondCell 1) h.body rfl) rfl
  have hwait : Reaches (alone .rust (2 : Fin 3)) (s.shared, { x with pc := .commitWm })
      (s.shared, { x with pc := .lock }) := by
    have hreach : Reaches (alone .rust (2 : Fin 3)) (s.shared, { x with pc := .commitWm })
        (s.shared, { x with pc := .lock, win := s.shared.gWm }) :=
      reaches_lock fun k _ hk => h.resolved hk
    rwa [h.gWm] at hreach
  obtain ⟨σ₁, hpub, hgNext, hgWm, hturn, hhist, -, hindex, hstate, hother⟩ :=
    reaches_publish (σ := s.shared) (x := x) (t := (2 : Fin 3)) h.lock rfl rfl
  have hentry : ∀ k, k < n → σ₁.entry k = s.shared.entry k := by
    intro k hk
    refine hother k ?_
    rw [Nat.mod_eq_of_lt (hk.trans hn), Nat.mod_eq_of_lt hn]
    exact hk.ne
  have hdueWm : Reaches (alone .rust (2 : Fin 3)) (σ₁, { x with pc := .dueWm })
      (σ₁, x.foldFrom 0) := by
    refine .tail .refl ?_
    have hlong : x.due σ₁.gWm = true := by
      rw [hgWm, h.gWm]
      exact decide_eq_true (.inr hdue)
    show some (σ₁, if x.due σ₁.gWm then x.foldFrom 0 else _) = _
    rw [if_pos hlong]
  have hzero : Reaches (alone .rust (2 : Fin 3)) (σ₁, x.foldFrom 0) (σ₁, x.foldFrom 1) := by
    refine reaches_foldFrom (by omega) (h3.trans' (by omega)) fun k _ hk => .inl ?_
    obtain rfl : k = 0 := by omega
    rw [hentry 0 (by omega), h.free]
    intro heq
    cases heq
  have hown : x.skips .rust firstCell = false := rfl
  let σ₂ : Shared (Fin 3) := { σ₁ with mem := Function.update σ₁.mem firstCell 1 }
  let σ₃ : Shared (Fin 3) := { σ₂ with mem := Function.update σ₂.mem firstCell 2 }
  have hfirst : Reaches (alone .rust (2 : Fin 3)) (σ₁, x.foldFrom 1) (σ₂, x.foldFrom 2) := by
    obtain ⟨htag, hcommitted, hcount, haddr, hval⟩ := h.entries 1 (.inl rfl)
    rw [← hentry 1 (by omega)] at htag hcommitted hcount haddr hval
    exact reaches_foldOne (h3.trans' (by omega)) htag hcommitted hcount haddr hval hown
  have hsecond : Reaches (alone .rust (2 : Fin 3)) (σ₂, x.foldFrom 2) (σ₃, x.foldFrom 3) := by
    obtain ⟨htag, hcommitted, hcount, haddr, hval⟩ := h.entries 2 (.inr rfl)
    rw [← hentry 2 (by omega)] at htag hcommitted hcount haddr hval
    exact reaches_foldOne (σ := σ₂) h3 htag hcommitted hcount haddr hval hown
  have hrest : Reaches (alone .rust (2 : Fin 3)) (σ₃, x.foldFrom 3) (σ₃, x.foldFrom n) := by
    refine reaches_foldFrom h3 le_rfl fun k hk hlt => .inl ?_
    have hab : (σ₃.entry k).state = .aborted :=
      (congrArg LogEntry.state (hentry k hlt)).trans (h.aborted k hk hlt)
    rw [hab]
    intro heq
    cases heq
  have hstore : Reaches (alone .rust (2 : Fin 3)) (σ₃, x.foldFrom n)
      ({ σ₃ with gWm := n }, { x with pc := .clear 0 }) := by
    rw [Tx.foldFrom, if_neg (lt_irrefl n)]
    exact .tail .refl rfl
  obtain ⟨d, hclear⟩ : ∃ d, Reaches (alone .rust (2 : Fin 3))
      ({ σ₃ with gWm := n }, { x with pc := .clear 0 })
      ({ σ₃ with gWm := n, gDirty := d }, x.dirtyFrom x.writeSet) := reaches_clear (by decide)
  have hdone : Reaches (alone .rust (2 : Fin 3))
      ({ σ₃ with gWm := n, gDirty := d }, x.dirtyFrom x.writeSet) _ := .of_iterate 3 rfl
  refine ⟨_, run_alone hcall (((((((((hwait.trans hpub).trans hdueWm).trans
    hzero).trans hfirst).trans hsecond).trans hrest).trans hstore).trans hclear).trans hdone), ?_⟩
  exact
    { idle := h.idle
      gNext := hgNext.trans h.gNext
      gWm := rfl
      lock := rfl
      turn := hturn.trans (congrArg (· + 1) h.turn)
      first := by
        refine (congrFun hhist 1).trans ?_
        rw [h.turn]
        exact h.first
      second := by
        refine (congrFun hhist 2).trans ?_
        rw [h.turn]
        exact h.second
      third := by
        refine (congrFun hhist 3).trans ?_
        rw [h.turn]
        rfl
      index := (congrFun hindex firstCell).trans h.index
      state := hstate
      mem := Function.update_self firstCell 2 σ₂.mem
      lt := by omega }

/-- The commit of a transaction that has read one cell, from the lock on: the index has a slot
below the watermark for the cell. -/
theorem reaches_readOnly {T : Type} {t : T} {σ : Shared T} {x : Tx} {a : CellAddr} {p : ℕ}
    (hlock : σ.gCommitLock = false) (hread : x.readSet = [(a, σ.mem a)])
    (hwrite : x.writeSet = []) (hindex : σ.gIndex a = some p) (hp : p < σ.gWm) :
    ∃ σ', Reaches (alone .rust t) (σ, { x with pc := .lock }) (σ', Tx.finish (some true)) ∧
      σ'.turn = σ.turn + 1 ∧ σ'.history = enter σ.history (σ.turn + 1) x.ops := by
  obtain ⟨pc, slot, active, readSet, writeSet, win, committed, ops⟩ := x
  cases hread
  cases hwrite
  let at' (q : Pc) : Tx := Tx.mk q slot active [(a, σ.mem a)] [] win committed ops
  let σ₁ : Shared T := { σ with gCommitLock := true, holder := some t, turn := σ.turn + 1 }
  have hacq : Reaches (alone .rust t) (σ, at' .lock)
      (σ₁, at' (.resolve a (.validate (σ.mem a) []) .loadWm)) := by
    refine .tail .refl ?_
    show some (acquire .rust t σ _) = _
    rw [acquire, hlock]
    rfl
  have hresolve : Reaches (alone .rust t)
      (σ₁, at' (.resolve a (.validate (σ.mem a) []) .loadWm)) (σ₁, at' .resetCount) := by
    refine .head ((σ₁, at' (.resolve a (.validate (σ.mem a) []) (.lookup σ.gWm)))) rfl
      (.head ((σ₁, at' (.resolve a (.validate (σ.mem a) []) .mem))) ?_ (.tail .refl ?_))
    · show some (σ₁, at' (.resolve a _ (.found (σ.gIndex a) σ.gWm))) = _
      rw [hindex, Resolve.found, if_pos hp]
    · show some (σ₁, if σ.mem a = σ.mem a then _ else _) = _
      rw [if_pos rfl]
      rfl
  exact ⟨_, (hacq.trans hresolve).trans (.of_iterate 3 rfl), rfl, rfl⟩

theorem Regressed.read (h : Regressed s n) (hn : n + 1 < kLogSlots) :
    ∃ s', Run (step .rust) anyStep s s' ∧ (s'.tx 0).committed = some true ∧
      s'.shared.turn = 4 ∧ s'.shared.history 1 = some [.write firstCell 2] ∧
      s'.shared.history 2 = some [.write firstCell 1] ∧
      s'.shared.history 3 = some [.write secondCell 1] ∧
      s'.shared.history 4 = some [.read firstCell 2] := by
  have hlt : 1 < s.shared.gWm := h.gWm ▸ h.lt
  have hself : Run (step .rust) anyStep s (s.put 0 s.shared (Tx.finish (some true))) := by
    rw [← h.idle, Threads.put_self]
    exact .refl
  let σ : Shared (Fin 3) := ({ s.shared with gNext := n + 2 }.setEntry (n + 1) fun e =>
    { e with tag := n + 1 }).setEntry (n + 1) fun e => { e with state := .progress }
  have hclaim : Reaches (alone .rust (0 : Fin 3)) (s.shared,
      { pc := .claim, committed := some true }) (σ, Tx.begin (n + 1)) := by
    have hreach : Reaches (alone .rust (0 : Fin 3)) (s.shared,
        { pc := .claim, committed := some true })
        (({ s.shared with gNext := s.shared.gNext + 1 }.setEntry s.shared.gNext fun e =>
          { e with tag := s.shared.gNext }).setEntry s.shared.gNext fun e =>
            { e with state := .progress }, Tx.begin s.shared.gNext) := .of_iterate 3 rfl
    rwa [h.gNext] at hreach
  let x : Tx := (Tx.begin (n + 1)).observe firstCell 2
  have hread : Reaches (alone .rust (0 : Fin 3))
      (σ, { Tx.begin (n + 1) with pc := .bloomFirst firstCell }) (σ, x) := by
    have hreach := reaches_read (t := (0 : Fin 3)) (σ := σ) (x := Tx.begin (n + 1)) h.index hlt
    rwa [show σ.mem firstCell = 2 from h.mem] at hreach
  have hwait : Reaches (alone .rust (0 : Fin 3)) (σ, { x with pc := .commitWm })
      (σ, { x with pc := .lock, win := σ.gWm }) := by
    refine reaches_lock fun k hk hklt => ?_
    have hk : s.shared.gWm ≤ k := hk
    have hklt : k < n + 1 := hklt
    rw [h.gWm] at hk
    obtain rfl : k = n := by omega
    have hstate : (σ.entry k).state = .committed := by
      rw [entry_setEntry_of_lt (by omega) hn (by omega),
        entry_setEntry_of_lt (by omega) hn (by omega), entry_gNext]
      exact h.state
    rw [hstate]
    intro heq
    cases heq
  obtain ⟨σ', hcommit, hturn, hhist⟩ := reaches_readOnly (t := (0 : Fin 3)) (σ := σ)
    (x := { x with win := σ.gWm }) h.lock (by rw [show σ.mem firstCell = 2 from h.mem]; rfl) rfl
    h.index hlt
  refine ⟨_, run_alone (run_call .commit (run_alone (run_call (.read firstCell)
    (run_alone (run_call .begin hself rfl) hclaim) rfl) hread) rfl)
    (hwait.trans hcommit), rfl, hturn.trans (congrArg (· + 1) h.turn), ?_⟩
  have hturn' : σ.turn = 3 := h.turn
  rw [Threads.put_shared, hhist, hturn']
  exact ⟨h.first, h.second, h.third, rfl⟩

end Regress

end MVLog
