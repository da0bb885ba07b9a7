import ClangTM.NOrec.Invariant

/-!
# NOrec reads consistent snapshots and commits serially

The invariant speaks of `memAt`, the memories the committed writers leave one
after another. Here it is brought back to the states of a run: every clock value
a transaction has taken as its snapshot is the value of `global_lock` in some
earlier state of the run, and whatever state of the run has that value of
`global_lock`, its memory is the one the transaction has read from.
-/

namespace NOrec

open Serial Transition

/-- A state of the run from the initial state to `s` in which `global_lock` had
the value `c`. -/
structure Passed (m₀ : WordAddr → Word) (s : State) (c : Word) (s₁ : State) : Prop where
  before : Run step Bounded (init m₀) s₁
  after : Run step Bounded s₁ s
  clock : s₁.globalLock = c

section Passed

variable {m₀ : WordAddr → Word} {s s' s₁ : State} {t : ℕ} {c : TxCall}

theorem Passed.tail {v : Word} (h : Passed m₀ s v s₁) {l : ℕ × TxCall}
    (hs : step s l = some s') (hb : Bounded s l s') : Passed m₀ s' v s₁ :=
  ⟨h.before, .tail l h.after hs hb, h.clock⟩

/-- Whatever state of the run had the even clock value `c`, its memory is `memAt`
at `c`. -/
theorem Passed.mem_eq {v : Word} (h : Passed m₀ s v s₁) (he : v.toNat % 2 = 0) :
    s₁.mem = s.memAt m₀ (v.toNat / 2) := by
  have hinv := ((Inv.init m₀).run h.before).1
  have hlater := (hinv.run h.after).2
  have hclock := h.clock
  subst hclock
  have hmem : s₁.mem = s₁.memAt m₀ (s₁.globalLock.toNat / 2) := hinv.lock.mem_of_even he
  rw [hmem]
  exact (hlater.mem _ (Nat.mul_div_le _ 2)).symm

theorem Tx.look_snapshot {x x' : Tx} {clock : Word} {mem : WordAddr → Word}
    (hs : x.look clock mem c = some x') (hin : x'.pc.inside = true) :
    x.pc.inside = true ∧ x'.snapshot = x.snapshot ∨ x'.snapshot = clock := by
  have hvalidated : ∀ k time, (x.validated k time).snapshot = time := by
    intro k time
    cases k <;> rfl
  unfold Tx.look at hs
  split at hs <;>
    grind [Pc.inside, Tx.begin, Tx.readWordNorec, Tx.writeWordNorec, Tx.abortTx,
      Tx.pushRead, Tx.validateTime]

theorem step_snapshot {l : ℕ × TxCall} (hs : step s l = some s') (u : ℕ)
    (hin : (s'.tx u).pc.inside = true) :
    (s.tx u).pc.inside = true ∧ (s'.tx u).snapshot = (s.tx u).snapshot ∨
      (s'.tx u).snapshot = s.globalLock ∧ s'.globalLock = s.globalLock := by
  by_cases hu : u = l.1
  · subst hu
    cases stepOf_move hs with
    | look x hx =>
        simp only [State.setTx, Function.update_self] at hin ⊢
        exact (Tx.look_snapshot hx hin).imp_right fun h => ⟨h, trivial⟩
    | commitReadOnly hpc hro =>
        simp [State.commitReadOnly, Tx.reset, Pc.inside] at hin
    | commitStart hpc hro => exact .inl (by simp [State.setTx, hpc, Pc.inside])
    | acquire hpc hlock => exact .inl (by simp [State.acquire, hpc, Pc.inside])
    | busy hpc => exact .inl (by simp [State.setTx, hpc, Pc.inside])
    | writeBack w rest hpc => exact .inl (by simp [State.writeBack, hpc, Pc.inside])
    | release hpc => simp [State.release, Tx.reset, Pc.inside] at hin
  · have hx : s'.tx u = s.tx u := by
      cases stepOf_move hs <;> exact Function.update_of_ne hu _ _
    rw [hx] at hin ⊢
    exact .inl ⟨hin, rfl⟩

theorem exists_passed (hr : Run step Bounded (init m₀) s) :
    ∀ t, (s.tx t).pc.inside = true → ∃ s₁, Passed m₀ s (s.tx t).snapshot s₁ := by
  induction hr with
  | refl => exact fun t hin => by simp [init, Pc.inside] at hin
  | tail l hr hs hb ih =>
      intro t hin
      rcases step_snapshot hs t hin with ⟨hin₀, heq⟩ | ⟨heq, hclock⟩
      · obtain ⟨s₁, h₁⟩ := ih t hin₀
        exact ⟨s₁, heq ▸ h₁.tail hs hb⟩
      · exact ⟨_, hr.tail l hs hb, .refl, by rw [heq, hclock]⟩

/-- Every read-only transaction that committed ran on the memory of a state of the
run with an even value of `global_lock`. -/
theorem exists_passed_readOnly (hr : Run step Bounded (init m₀) s) :
    ∀ r ∈ s.ro, ∃ s₁, Passed m₀ s (BitVec.ofNat 64 (2 * r.1)) s₁ := by
  induction hr with
  | refl => exact fun r hmem => by simp [init] at hmem
  | @tail s₁ s₂ l hr hs hb ih =>
      have hinv := ((Inv.init m₀).run hr).1
      have hold : ∀ r ∈ s₁.ro, ∃ s₀, Passed m₀ s₂ (BitVec.ofNat 64 (2 * r.1)) s₀ := by
        intro r hmem
        obtain ⟨s₀, h₀⟩ := ih r hmem
        exact ⟨s₀, h₀.tail hs hb⟩
      have hpassed := exists_passed hr
      intro r hmem
      cases stepOf_move hs with
      | commitReadOnly hpc hro =>
          rcases List.mem_cons.1 hmem with rfl | hmem
          · have hin : (s₁.tx l.1).pc.inside = true := by simp [hpc, Pc.inside]
            obtain ⟨s₀, h₀⟩ := hpassed l.1 hin
            have heven := ((hinv.tx l.1).taken hin).even
            refine ⟨s₀, ?_⟩
            have hclock : BitVec.ofNat 64 (2 * ((s₁.tx l.1).snapshot.toNat / 2)) =
                (s₁.tx l.1).snapshot := by
              rw [Nat.mul_div_cancel' (Nat.dvd_of_mod_eq_zero heven), BitVec.ofNat_toNat,
                BitVec.setWidth_eq]
            rw [hclock]
            exact h₀.tail hs hb
          · exact hold r hmem
      | _ => exact hold r hmem

end Passed

theorem Inv.mem_of_free {m₀ : WordAddr → Word} {s : State} (h : Inv m₀ s)
    (heven : isOdd s.globalLock = false) : s.mem = s.memAt m₀ s.writers := by
  have hodd : ¬ s.globalLock.toNat % 2 = 1 := by simp [← isOdd_iff, heven]
  have hmod : s.view.clock % 2 = 0 := Nat.mod_two_ne_one.1 hodd
  exact (h.lock.free_of_even hmod).mem

/-- In every state reached with fewer than `2 ^ 63` writers and without skipped
writes: the entries of an active transaction's read set are what memory held when
`global_lock` had the even value `snapshot`, which it had; a commit
compare-and-swap that succeeds finds the read set in memory; when the lock is free,
memory is what the committed transactions leave when they run one after another,
the writers in the order of their compare-and-swaps; and every read-only
transaction ran on the memory of one even clock value. -/
theorem snapshot_serializable (m₀ : WordAddr → Word) {s : State}
    (hr : Run step Bounded (init m₀) s) :
    (∀ t, (s.tx t).active = true → ∀ r ∈ (s.tx t).readSet,
      (s.tx t).snapshot.toNat % 2 = 0 ∧
        (∃ s₁, Passed m₀ s (s.tx t).snapshot s₁) ∧
        ∀ s₁, Passed m₀ s (s.tx t).snapshot s₁ → s₁.mem r.addr = r.observedVal) ∧
    (∀ t, (s.tx t).pc = .commitCas → s.globalLock = (s.tx t).snapshot →
      ∀ r ∈ (s.tx t).readSet, s.mem r.addr = r.observedVal) ∧
    (∀ n, 0 < n → n ≤ s.writers → ∃ w, s.log n = some w) ∧
    (isOdd s.globalLock = false → SerialRun m₀ (schedule s.log s.ro s.writers) s.mem) ∧
    (∀ r ∈ s.ro, r.1 ≤ s.writers ∧ ∃ s₁,
      Passed m₀ s (BitVec.ofNat 64 (2 * r.1)) s₁ ∧ Legal s₁.mem r.2) := by
  have h := ((Inv.init m₀).run hr).1
  refine ⟨fun t _ r hmem => ?_, fun t hpc hlock r hmem => ?_, fun n hpos hn => ?_,
    fun heven => ?_, fun r hmem => ?_⟩
  · have hin : (s.tx t).pc.inside = true := by
      by_contra hout
      simp [(h.tx t).outside (by simpa using hout)] at hmem
    have htaken := (h.tx t).taken hin
    refine ⟨htaken.even, exists_passed hr t hin, fun s₁ h₁ => ?_⟩
    rw [h₁.mem_eq htaken.even]
    exact htaken.reads r hmem
  · have htaken := (h.tx t).taken (by simp [hpc, Pc.inside])
    have hfree := h.free_of_snapshot (by simp [hpc, Pc.inside]) hlock
    have hclock : s.globalLock.toNat = 2 * s.writers := hfree.clock
    have hreads := htaken.reads r hmem
    rw [← hlock, hclock, Nat.mul_div_cancel_left _ (by decide)] at hreads
    exact (congrFun hfree.mem r.addr).trans hreads
  · obtain ⟨w, hw, -⟩ := h.lock.log n hpos hn
    exact ⟨w, hw⟩
  · rw [h.mem_of_free heven]
    exact h.lock.serialRun
  · obtain ⟨hle, hlegal, -⟩ := h.lock.ro r hmem
    obtain ⟨s₁, h₁⟩ := exists_passed_readOnly hr r hmem
    have hclock : s.globalLock.toNat ≤ 2 * s.writers := h.lock.clock_le.1
    replace hle : 2 * r.1 ≤ s.globalLock.toNat := hle
    have hlt := s.globalLock.isLt
    have hnat : (BitVec.ofNat 64 (2 * r.1)).toNat = 2 * r.1 := by
      rw [BitVec.toNat_ofNat]
      exact Nat.mod_eq_of_lt (by omega)
    refine ⟨by omega, s₁, h₁, ?_⟩
    rw [h₁.mem_eq (by omega), hnat, Nat.mul_div_cancel_left _ (by decide)]
    exact hlegal

def setFirst : List (ℕ × TxCall) :=
  [(2, .begin), (2, .tau), (2, .write firstWord 1), (2, .commit), (2, .tau), (2, .tau),
    (2, .tau)]

def readFirst : List (ℕ × TxCall) :=
  [(1, .begin), (1, .tau), (1, .read firstWord), (1, .tau), (1, .tau), (1, .tau), (1, .tau)]

theorem snapshot_serializable_commit : ∃ s, Run step Bounded (init fun _ => 0) s ∧
    s.writers = 1 ∧ s.ro = [(1, [.read firstWord 1])] ∧
    SerialRun (fun _ => 0) (schedule s.log s.ro s.writers) s.mem := by
  obtain ⟨s, hr, hlock, hwriters, hro⟩ :
      ∃ s, Run step Bounded (init fun _ => 0) s ∧ isOdd s.globalLock = false ∧ s.writers = 1 ∧
        s.ro = [(1, [.read firstWord 1])] :=
    exists_run_of_exec (.flatten [setFirst, readFirst, [(1, .commit)]]) (by decide +kernel)
  exact ⟨s, hr, hwriters, hro, (snapshot_serializable _ hr).2.2.2.1 hlock⟩

def Writable (_ : State) (l : ℕ × TxCall) (_ : State) : Prop := WritesLow l.2

instance (s : State) (l : ℕ × TxCall) (s' : State) : Decidable (Writable s l s') :=
  inferInstanceAs (Decidable (WritesLow l.2))

theorem exec_setFirst {s : State} (hpc : (s.tx 2).pc = .out)
    (heven : isOdd s.globalLock = false) :
    exec step Writable s setFirst = some
      { s with
        globalLock := s.globalLock + 2
        mem := Function.update s.mem firstWord 1
        tx := Function.update s.tx 2 {}
        writers := s.writers + 1
        log := enter s.log (s.writers + 1) [.write firstWord 1] } := by
  have hlt : firstWord.val < 140737488355328 := by decide
  have hlow : firstWord.val >>> 47 = 0 := by decide
  simp [setFirst, exec_cons, step, stepOf, Tx.look, hpc, State.setTx, Writable,
    WritesLow, Tx.begin, heven, Tx.writeWordNorec, hlt, hlow, State.acquire, putFront,
    State.writeBack, State.release, Tx.reset]

theorem isOdd_add_two {c : Word} (hc : isOdd c = false) : isOdd (c + 2) = false := by
  have htwo : (2 : Word).toNat = 2 := rfl
  have h := isOdd_iff c
  rw [hc] at h
  simp only [Bool.false_eq_true, false_iff] at h
  rw [Bool.eq_false_iff, ne_eq, isOdd_iff, BitVec.toNat_add, htwo]
  omega

/-- Any number of these transactions, one after another: the lock moves by two
each time, and thread 1 does not move. -/
theorem run_setFirst {s : State} (hpc : (s.tx 2).pc = .out)
    (heven : isOdd s.globalLock = false) (n : ℕ) :
    ∃ s', Run step Writable s s' ∧ (s'.tx 2).pc = .out ∧ isOdd s'.globalLock = false ∧
      s'.globalLock = s.globalLock + BitVec.ofNat 64 (2 * (n + 1)) ∧
      s'.mem firstWord = 1 ∧ s'.tx 1 = s.tx 1 := by
  induction n with
  | zero =>
      refine ⟨_, run_of_exec (exec_setFirst hpc heven), ?_, isOdd_add_two heven, rfl, ?_, ?_⟩
      all_goals simp
  | succ n ih =>
      obtain ⟨s', hr, hpc', heven', hlock, -, htx⟩ := ih
      refine ⟨_, hr.trans (run_of_exec (exec_setFirst hpc' heven')), ?_,
        isOdd_add_two heven', ?_, ?_, ?_⟩
      · simp
      · simp only [hlock]
        rw [BitVec.add_assoc, show (2 : Word) = BitVec.ofNat 64 2 from rfl,
          ← BitVec.ofNat_add]
        congr 2
      · simp
      · simp [htx]

/-- The lock wraps: after `2 ^ 63` writers it has its old value again, and a
transaction that began before them commits although the word it read has changed. -/
theorem exists_stale_acquire :
    ∃ s t, Run step Writable (init fun _ => 0) s ∧ (s.tx t).pc = .commitCas ∧
      s.globalLock = (s.tx t).snapshot ∧
      ∃ r ∈ (s.tx t).readSet, s.mem r.addr ≠ r.observedVal := by
  obtain ⟨s₁, h₁, hpc₁, hlock₁, hx₁⟩ :
      ∃ s₁, exec step Writable (init fun _ => 0) readFirst = some s₁ ∧
        (s₁.tx 2).pc = .out ∧ s₁.globalLock = 0 ∧
        s₁.tx 1 =
          { pc := .body, active := true, readSet := [⟨firstWord, 0, 0⟩],
            ops := [.read firstWord 0] } := ⟨_, rfl, rfl, rfl, rfl⟩
  have heven₁ : isOdd s₁.globalLock = false := by
    rw [hlock₁]
    rfl
  obtain ⟨s₂, h₂, -, -, hlock₂, hmem₂, hx₂⟩ := run_setFirst hpc₁ heven₁ (2 ^ 63 - 1)
  have h₃ : exec step Writable s₂ [(1, .write secondWord 1), (1, .commit)] =
      some (s₂.setTx 1 { s₁.tx 1 with
        pc := .commitCas, readOnly := false, writeSet := [(secondWord, 1)]
        ops := [.write secondWord 1, .read firstWord 0] }) := by
    have hlt : secondWord.val < 140737488355328 := by decide
    have hlow : secondWord.val >>> 47 = 0 := by decide
    simp [exec_cons, step, stepOf, Tx.look, hx₁, hx₂, State.setTx, Writable,
      WritesLow, Tx.writeWordNorec, hlt, hlow, putFront]
  refine ⟨_, 1, ((run_of_exec h₁).trans h₂).trans (run_of_exec h₃), ?_, ?_,
    ⟨firstWord, 0, 0⟩, ?_, ?_⟩
  · simp [State.setTx]
  · simp [State.setTx, hlock₂, hlock₁, hx₁]
  · simp [State.setTx, hx₁]
  · simp [State.setTx, hmem₂]

def skippedWord : WordAddr := ⟨2 ^ 47, by decide, by decide, by decide⟩

/-- Neither bound can be left out: the compare-and-swap of a transaction can
succeed on a stale read set once the lock has wrapped, and a transaction can commit
with a write that never reaches memory. -/
theorem stale_acquire_and_lost_write :
    (∃ s t, Run step Writable (init fun _ => 0) s ∧ (s.tx t).pc = .commitCas ∧
      s.globalLock = (s.tx t).snapshot ∧
      ∃ r ∈ (s.tx t).readSet, s.mem r.addr ≠ r.observedVal) ∧
    ∃ s, Run step anyStep (init fun _ => 0) s ∧ s.ro = [(0, [.write skippedWord 1])] ∧
      s.writers = 0 ∧ s.mem skippedWord = 0 := by
  refine ⟨exists_stale_acquire, ?_⟩
  have hs : ∃ s, exec step anyStep (init fun _ => 0)
      [(1, .begin), (1, .tau), (1, .write skippedWord 1), (1, .commit)] = some s ∧
      s.ro = [(0, [.write skippedWord 1])] ∧ s.writers = 0 ∧ s.mem skippedWord = 0 :=
    ⟨_, rfl, rfl, rfl, rfl⟩
  obtain ⟨s, hs, hrest⟩ := hs
  exact ⟨s, run_of_exec hs, hrest⟩

end NOrec
