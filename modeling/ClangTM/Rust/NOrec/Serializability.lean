import ClangTM.Rust.NOrec.Invariant
import Mathlib.Data.Fintype.Basic

/-!
# The Rust NOrec backend reads snapshots and commits serially

The invariant brought back to the states of a run: every snapshot is the value that
`GLOBAL_LOCK` had in some earlier state of the run, and whatever state of the run has
that value, its memory is the one the transaction has read from. A `tm_commit` that
returns false has not changed anything.

The bound on the number of writers cannot be left out: after `2 ^ 63` of them the lock
has its old value again, and a transaction that read before them commits.
-/

namespace Rust.NOrec

open Serial Transition SeqLock

variable {T : Type} [DecidableEq T] {m₀ : CellAddr → Word} {s s' s₁ : Threads Shared Tx T}
  {c : Word} {l : T × Call}

/-- A state of the run from the initial state to `s` in which `GLOBAL_LOCK` had the
value `c`. -/
structure Passed (m₀ : CellAddr → Word) (s : Threads Shared Tx T) (c : Word)
    (s₁ : Threads Shared Tx T) : Prop where
  before : Run step Bounded (init T m₀) s₁
  after : Run step Bounded s₁ s
  clock : s₁.shared.globalLock = c

theorem Passed.tail (h : Passed m₀ s c s₁) (hs : step s l = some s') (hb : Bounded s l s') :
    Passed m₀ s' c s₁ :=
  ⟨h.before, .tail l h.after hs hb, h.clock⟩

/-- Whatever state of the run had the even clock value `c`, its memory is the one that
the writers up to `c` left. -/
theorem Passed.mem_eq (h : Passed m₀ s c s₁) (heven : c.toNat % 2 = 0) :
    s₁.shared.mem = (view s).memAt m₀ (c.toNat / 2) := by
  have hinv := ((Inv.init m₀).run h.before).1
  have hlater := (hinv.run h.after).2
  have hclock := h.clock
  subst hclock
  have hmem := hinv.lock.mem_of_even heven
  rw [← hlater.mem _ (Nat.mul_div_le _ 2)] at hmem
  exact hmem

theorem Tx.validateNone_active (x : Tx) (k : Caller) : (x.validateNone k).active = false := by
  cases k <;> rfl

theorem Tx.validateSome_snapshot (x : Tx) (k : Caller) (time : Word) :
    (x.validateSome k time).active = x.active ∧
      ((x.validateSome k time).snapshot = time ∨
        (x.validateSome k time).snapshot = x.snapshot) := by
  cases k with
  | readWord a => exact ⟨rfl, .inl rfl⟩
  | commit => exact ⟨rfl, .inr rfl⟩

theorem Tx.look_snapshot {x x' : Tx} {clock : Word} {mem : CellAddr → Word} {c : Call}
    (hflags : Flags x) (hs : x.look clock mem c = some x') (hactive : x'.active = true) :
    x.active = true ∧ x'.snapshot = x.snapshot ∨ x'.snapshot = clock := by
  have hidle := hflags.active
  unfold Tx.look at hs
  split at hs <;>
    grind [Pc.running, Tx.tmBegin, Tx.readWord, Tx.writeWord, Tx.tmAbort, Tx.flush,
      Tx.readCheck, Tx.pushRead, Tx.validateTime, Tx.validateSome_snapshot,
      Tx.validateNone_active]

/-- A step leaves an active thread with its snapshot or gives it the current clock. -/
theorem step_snapshot (h : Inv m₀ s) (hs : step s l = some s') (u : T)
    (hactive : (s'.tx u).active = true) :
    (s.tx u).active = true ∧ (s'.tx u).snapshot = (s.tx u).snapshot ∨
      (s'.tx u).snapshot = s'.shared.globalLock := by
  obtain ⟨σ, x, hnext, rfl⟩ := Threads.step_eq_some hs
  by_cases hu : u = l.1
  · subst hu
    have hflags := (h.tx l.1).flags
    rw [Threads.put_tx_self] at hactive ⊢
    cases next_move hnext with
    | look x hx => exact Tx.look_snapshot hflags hx hactive
    | commitReadOnly hpc hwrite => simp [Tx.flush] at hactive
    | commitStart hpc => simp at hactive
    | acquire snapshot hpc hlock => exact .inl ⟨hactive, rfl⟩
    | busy snapshot hpc => exact .inl ⟨hactive, rfl⟩
    | writeBack snapshot w rest hpc => exact .inl ⟨hactive, rfl⟩
    | release snapshot hpc => simp [Tx.flush] at hactive
  · rw [Threads.put_tx_of_ne hu] at hactive ⊢
    exact .inl ⟨hactive, rfl⟩

theorem exists_passed (hr : Run step Bounded (init T m₀) s) :
    ∀ t, (s.tx t).active = true → ∃ s₁, Passed m₀ s (s.tx t).snapshot s₁ := by
  induction hr with
  | refl => exact fun t hactive => by simp [init] at hactive
  | tail l hr hs hb ih =>
      intro t hactive
      have hinv := ((Inv.init m₀).run hr).1
      rcases step_snapshot hinv hs t hactive with ⟨hactive₀, heq⟩ | heq
      · obtain ⟨s₁, h₁⟩ := ih t hactive₀
        exact ⟨s₁, heq ▸ h₁.tail hs hb⟩
      · exact ⟨_, hr.tail l hs hb, .refl, heq.symm⟩

theorem ofNat_two_mul_half (heven : c.toNat % 2 = 0) : BitVec.ofNat 64 (2 * (c.toNat / 2)) = c := by
  rw [Nat.mul_div_cancel' (Nat.dvd_of_mod_eq_zero heven), BitVec.ofNat_toNat,
    BitVec.setWidth_eq]

/-- Every read-only transaction that committed ran on the memory of a state of the run
with an even value of `GLOBAL_LOCK`. -/
theorem exists_passed_readOnly (hr : Run step Bounded (init T m₀) s) :
    ∀ r ∈ s.shared.ro, ∃ s₁, Passed m₀ s (BitVec.ofNat 64 (2 * r.1)) s₁ := by
  induction hr with
  | refl => exact fun r hmem => by simp [init] at hmem
  | @tail s₁ s₂ l hr hs hb ih =>
      have hold : ∀ r ∈ s₁.shared.ro, ∃ s₀, Passed m₀ s₂ (BitVec.ofNat 64 (2 * r.1)) s₀ := by
        intro r hmem
        obtain ⟨s₀, h₀⟩ := ih r hmem
        exact ⟨s₀, h₀.tail hs hb⟩
      have htx := (((Inv.init m₀).run hr).1.tx l.1)
      have hpassed := exists_passed hr l.1
      intro r hmem
      obtain ⟨σ, x, hnext, rfl⟩ := Threads.step_eq_some hs
      cases next_move hnext with
      | commitReadOnly hpc hwrite =>
          rcases List.mem_cons.1 hmem with rfl | hmem
          · have hactive : (s₁.tx l.1).active = true := by
              rw [htx.flags.active, hpc]
              rfl
            obtain ⟨s₀, h₀⟩ := hpassed hactive
            refine ⟨s₀, ?_⟩
            rw [ofNat_two_mul_half (htx.taken hactive).even]
            exact h₀.tail hs hb
          · exact hold r hmem
      | _ => exact hold r hmem

theorem step_changed (hs : step s l = some s')
    (hchange : s'.shared.mem ≠ s.shared.mem ∨ s'.shared.globalLock ≠ s.shared.globalLock) :
    (s'.tx l.1).changed = true := by
  obtain ⟨σ, x, hnext, rfl⟩ := Threads.step_eq_some hs
  rw [Threads.put_tx_self]
  cases next_move hnext <;> simp at hchange ⊢

/-- In every state reached with fewer than `2 ^ 63` writers: the entries of an active
transaction's read set are what memory held when `GLOBAL_LOCK` had the even value
`snapshot`, which it had; the committed transactions are a serial run, the writers in the
order in which they took the lock, that leads to memory whenever the lock is free; every
read-only transaction ran on the memory at its snapshot; and a `tm_commit` that returned
false has made no step that changes memory or `GLOBAL_LOCK`. -/
theorem reads_at_snapshot_and_serial (m₀ : CellAddr → Word)
    (hr : Run step Bounded (init T m₀) s) :
    (∀ t, (s.tx t).active = true → ∀ r ∈ (s.tx t).readSet,
      (s.tx t).snapshot.toNat % 2 = 0 ∧
        (∃ s₁, Passed m₀ s (s.tx t).snapshot s₁) ∧
        ∀ s₁, Passed m₀ s (s.tx t).snapshot s₁ → s₁.shared.mem r.addr = r.observedVal) ∧
    (∀ n, 0 < n → n ≤ s.shared.writers → ∃ w, s.shared.log n = some w) ∧
    (∃ m, SerialRun m₀ (schedule s.shared.log s.shared.ro s.shared.writers) m ∧
      (isOdd s.shared.globalLock = false → m = s.shared.mem)) ∧
    (∀ r ∈ s.shared.ro, r.1 ≤ s.shared.writers ∧ ∃ s₁,
      Passed m₀ s (BitVec.ofNat 64 (2 * r.1)) s₁ ∧ Legal s₁.shared.mem r.2) ∧
    (∀ t, (s.tx t).committed = some false → (s.tx t).changed = false) ∧
    (∀ l s', step s l = some s' →
      s'.shared.mem ≠ s.shared.mem ∨ s'.shared.globalLock ≠ s.shared.globalLock →
        (s'.tx l.1).changed = true) := by
  have h := ((Inv.init m₀).run hr).1
  refine ⟨fun t hactive r hmem => ?_, fun n hpos hn => ?_, ⟨_, h.lock.serialRun, ?_⟩,
    fun r hmem => ?_, fun t => (h.tx t).flags.failed, fun l s' => step_changed⟩
  · have htaken := (h.tx t).taken hactive
    refine ⟨htaken.even, exists_passed hr t hactive, fun s₁ h₁ => ?_⟩
    rw [h₁.mem_eq htaken.even]
    exact htaken.reads r hmem
  · obtain ⟨w, hw, -⟩ := h.lock.log n hpos hn
    exact ⟨w, hw⟩
  · intro hodd
    exact (h.lock.free_of_even (even_of_not_isOdd (by simp [hodd]))).mem.symm
  · obtain ⟨hle, hlegal, -⟩ := h.lock.ro r hmem
    obtain ⟨s₁, h₁⟩ := exists_passed_readOnly hr r hmem
    have hclock := h.lock.clock_le.1
    have hlt : (view s).clock < 2 ^ 64 := s.shared.globalLock.isLt
    have hnat : (BitVec.ofNat 64 (2 * r.1)).toNat = 2 * r.1 := by
      rw [BitVec.toNat_ofNat]
      exact Nat.mod_eq_of_lt (by omega)
    have hwriters : 2 * r.1 ≤ 2 * s.shared.writers := hle.trans hclock
    refine ⟨by omega, s₁, h₁, ?_⟩
    rw [h₁.mem_eq (by omega), hnat, Nat.mul_div_cancel_left _ (by decide)]
    exact hlegal

def setFirst : List (Fin 2 × Call) :=
  [(1, .begin), (1, .tau), (1, .write firstCell 1), (1, .commit), (1, .tau), (1, .tau),
    (1, .tau)]

def readFirst : List (Fin 2 × Call) :=
  [(0, .begin), (0, .tau), (0, .read firstCell), (0, .tau), (0, .tau), (0, .tau)]

/-- The commit of the second thread fails once by the weak compare-and-swap, and the
first thread commits after it without writes. -/
theorem reads_at_snapshot_and_serial_commit : ∃ s : Threads Shared Tx (Fin 2),
    Run step Bounded (init (Fin 2) fun _ => 0) s ∧ s.shared.writers = 1 ∧
    s.shared.ro = [(1, [.read firstCell 1])] ∧
    ∃ m, SerialRun (fun _ => 0) (schedule s.shared.log s.shared.ro s.shared.writers) m ∧
      m = s.shared.mem := by
  obtain ⟨s, hr, hlock, hwriters, hro⟩ :
      ∃ s, Run step Bounded (init (Fin 2) fun _ => 0) s ∧ isOdd s.shared.globalLock = false ∧
        s.shared.writers = 1 ∧ s.shared.ro = [(1, [.read firstCell 1])] :=
    exists_run_of_exec
      (.flatten [Threads.calls 1 [.begin, .tau, .write firstCell 1, .commit, .weak, .tau, .tau,
        .tau, .tau, .tau], readFirst, [(0, .commit)]]) (by decide +kernel)
  obtain ⟨m, hserial, hm⟩ := (reads_at_snapshot_and_serial _ hr).2.2.1
  exact ⟨s, hr, hwriters, hro, m, hserial, hm hlock⟩

theorem exec_setFirst {s : Threads Shared Tx (Fin 2)} (hpc : (s.tx 1).pc = .out)
    (heven : isOdd s.shared.globalLock = false) :
    exec step anyStep s setFirst = some (s.put 1
      { s.shared with
        globalLock := s.shared.globalLock + 2
        mem := Function.update s.shared.mem firstCell 1
        writers := s.shared.writers + 1
        log := enter s.shared.log (s.shared.writers + 1) [.write firstCell 1] }
      { committed := some true, changed := true }) := by
  have hbegin : next s.shared (s.tx 1) .begin =
      some (s.shared, { s.tx 1 with pc := .beginClock }) := by
    simp [next, Tx.look, hpc]
  have hclock : next s.shared { s.tx 1 with pc := .beginClock } .tau =
      some (s.shared, { pc := .body, active := true, snapshot := s.shared.globalLock }) := by
    simp [next, Tx.look, Tx.tmBegin, heven]
  have hcas : commitCas s.shared
      { pc := .commitCas s.shared.globalLock, snapshot := s.shared.globalLock
        readOnly := false, writeSet := [(firstCell, 1)], ops := [.write firstCell 1] }
      s.shared.globalLock =
      ({ s.shared with
          globalLock := s.shared.globalLock + 1
          writers := s.shared.writers + 1
          log := enter s.shared.log (s.shared.writers + 1) [.write firstCell 1] },
        { pc := .writeBack s.shared.globalLock [(firstCell, 1)]
          snapshot := s.shared.globalLock, readOnly := false, writeSet := [(firstCell, 1)]
          ops := [.write firstCell 1], changed := true }) :=
    if_pos rfl
  rw [setFirst, step, Threads.exec_cons_of_next hbegin,
    Threads.exec_put (by exact hclock),
    Threads.exec_put (by rfl),
    Threads.exec_put (by rfl),
    Threads.exec_put (by exact congrArg some hcas),
    Threads.exec_put (by rfl),
    Threads.exec_put (by rfl), exec_nil]
  rfl

theorem isOdd_add_two (hc : isOdd c = false) : isOdd (c + 2) = false := by
  have htwo : (2 : Word).toNat = 2 := rfl
  have h := even_of_not_isOdd (c := c) (by simp [hc])
  rw [Bool.eq_false_iff, ne_eq, isOdd_iff, BitVec.toNat_add, htwo]
  omega

/-- Any number of these transactions, one after another: the lock moves by two each
time, and thread 0 does not move. -/
theorem run_setFirst {s : Threads Shared Tx (Fin 2)} (hpc : (s.tx 1).pc = .out)
    (heven : isOdd s.shared.globalLock = false) (n : ℕ) :
    ∃ s', Run step anyStep s s' ∧ (s'.tx 1).pc = .out ∧
      isOdd s'.shared.globalLock = false ∧
      s'.shared.globalLock = s.shared.globalLock + BitVec.ofNat 64 (2 * (n + 1)) ∧
      s'.shared.writers = s.shared.writers + (n + 1) ∧
      s'.shared.log s'.shared.writers = some [.write firstCell 1] ∧
      s'.shared.ro = s.shared.ro ∧ s'.tx 0 = s.tx 0 := by
  induction n with
  | zero =>
      refine ⟨_, run_of_exec (exec_setFirst hpc heven), ?_, isOdd_add_two heven, rfl, rfl, ?_,
        rfl, ?_⟩
      all_goals simp [Threads.put_tx_of_ne]
  | succ n ih =>
      obtain ⟨s', hr, hpc', heven', hlock, hwriters, -, hro, htx⟩ := ih
      refine ⟨_, hr.trans (run_of_exec (exec_setFirst hpc' heven')), ?_,
        isOdd_add_two heven', ?_, ?_, ?_, hro, ?_⟩
      · simp
      · simp only [Threads.put_shared, hlock]
        rw [BitVec.add_assoc, show (2 : Word) = BitVec.ofNat 64 2 from rfl,
          ← BitVec.ofNat_add]
        congr 2
      · simp only [Threads.put_shared, hwriters]
        omega
      · simp
      · rw [Threads.put_tx_of_ne (by decide), htx]

/-- The lock wraps: after `2 ^ 63` writers it has its old value again, and a transaction
that read before them takes it with a stale read set. -/
theorem not_serial_after_wrap : ∃ s : Threads Shared Tx (Fin 2),
    Run step anyStep (init (Fin 2) fun _ => 0) s ∧
      ¬∃ m, SerialRun (fun _ => 0) (schedule s.shared.log s.shared.ro s.shared.writers) m := by
  obtain ⟨s₁, h₁, hpc₁, hlock₁, hwriters₁, hro₁, hx₁⟩ :
      ∃ s₁, exec step anyStep (init (Fin 2) fun _ => 0) readFirst = some s₁ ∧
        (s₁.tx 1).pc = .out ∧ s₁.shared.globalLock = 0 ∧ s₁.shared.writers = 0 ∧
        s₁.shared.ro = [] ∧
        s₁.tx 0 =
          { pc := .body, active := true, readSet := [⟨firstCell, 0⟩],
            ops := [.read firstCell 0] } := ⟨_, rfl, rfl, rfl, rfl, rfl, rfl⟩
  have heven₁ : isOdd s₁.shared.globalLock = false := by
    rw [hlock₁]
    rfl
  obtain ⟨s₂, h₂, -, -, hlock₂, hwriters₂, hlog₂, hro₂, hx₂⟩ :=
    run_setFirst hpc₁ heven₁ (2 ^ 63 - 1)
  have hzero : s₂.shared.globalLock = 0 := by
    simp [hlock₂, hlock₁]
  obtain ⟨s₃, h₃, hwriters₃, hlog₃, hro₃⟩ : ∃ s₃, exec step anyStep s₂
      [(0, .write secondCell 1), (0, .commit), (0, .tau)] = some s₃ ∧
      s₃.shared.writers = s₂.shared.writers + 1 ∧
      s₃.shared.log = enter s₂.shared.log (s₂.shared.writers + 1)
        [.write secondCell 1, .read firstCell 0] ∧ s₃.shared.ro = [] := by
    simp [exec_cons, step, Threads.step, next, Tx.look, hx₁, hx₂, anyStep, Tx.writeWord,
      tmCommit, commitCas, putBack, hzero, hro₁, hro₂]
  refine ⟨s₃, ((run_of_exec h₁).trans h₂).trans (run_of_exec h₃), ?_⟩
  have hset : s₃.shared.log s₂.shared.writers = some [.write firstCell 1] := by
    rw [hlog₃, enter_of_ne _ (by omega), hlog₂]
  have hread : s₃.shared.log (s₂.shared.writers + 1) =
      some [.write secondCell 1, .read firstCell 0] := by
    rw [hlog₃, enter_self]
  have hne : (1 : Word) ≠ 0 := by decide
  rw [hro₃, hwriters₃]
  exact not_serialRun_of_stale hne (by omega) hset hread

end Rust.NOrec
