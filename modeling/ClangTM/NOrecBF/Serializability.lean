import ClangTM.NOrec.Serializability
import ClangTM.NOrecBF.Invariant

/-!
# NOrec-BF validates soundly and commits serially

When `validate` returns on the fast path, the whole read set is in memory, whenever the global
filter was rebuilt. The committed transactions are a serial run in the order of the clock, as
in NOrec, with the same two bounds.
-/

namespace NOrecBF

open Serial Transition NOrec BloomFilter

/-- In every state reached with fewer than `2 ^ 63` writers and without skipped writes: if
`validate` is about to return `time` on the fast path, every entry of the read set is what
memory holds at that clock value; every writer is in the log; and the committed transactions
are a serial run in clock order, to the memory of the state if the lock is free. -/
theorem fast_path_serializable (m₀ : WordAddr → Word) {s : Threads Shared Tx ℕ}
    (hr : Run step Bounded (init m₀) s) :
    (∀ t k time, (s.tx t).pc = .validateFast k time → time = s.shared.globalLock →
      ∀ r ∈ (s.tx t).readSet, s.shared.mem r.addr = r.observedVal) ∧
    (∀ n, 0 < n → n ≤ s.shared.writers → ∃ w, s.shared.log n = some w) ∧
    ∃ m, SerialRun m₀ (schedule s.shared.log s.shared.ro s.shared.writers) m ∧
      (isOdd s.shared.globalLock = false → s.shared.mem = m) := by
  have h := Inv.run hr
  refine ⟨fun t k time hpc htime r hmem => ?_, fun n hpos hn => ?_, _, h.base.lock.serialRun,
    h.base.mem_of_free⟩
  · obtain ⟨-, heven, -, hreads⟩ := h.taken_of_fast hpc htime
    have hnow : s.shared.mem = memAt m₀ s.shared.log (s.shared.globalLock.toNat / 2) :=
      h.base.lock.mem_of_even (by rw [htime] at heven; exact heven)
    rw [hnow, ← htime]
    exact hreads r hmem
  · obtain ⟨w, hw, -⟩ := h.base.lock.log n hpos hn
    exact ⟨w, hw⟩

def taus (t n : ℕ) : List (ℕ × TxCall) := List.replicate n (t, .tau)

/-- A thread reads the first word, another one writes the second word and commits, and the
first one reads the second word: it validates on the fast path. -/
def fastRead : List (ℕ × TxCall) :=
  [(1, .begin), (1, .tau), (1, .tau), (1, .read firstWord)] ++ taus 1 4 ++
    [(2, .begin), (2, .tau), (2, .tau), (2, .write secondWord 1), (2, .commit)] ++ taus 2 69 ++
    [(1, .read secondWord)] ++ taus 1 70

theorem fast_path_serializable_two : ∃ s, Run step Bounded (init fun _ => 0) s ∧
    (s.tx 1).pc = .validateFast (.readWord secondWord) 2 ∧ s.shared.globalLock = 2 ∧
    (s.tx 1).readSet = [⟨firstWord, 0, 0⟩] ∧ s.shared.mem firstWord = 0 := by
  obtain ⟨s, hr, hpc, hlock, hreads⟩ :
      ∃ s, Run step Bounded (init fun _ => 0) s ∧
        (s.tx 1).pc = .validateFast (.readWord secondWord) 2 ∧ s.shared.globalLock = 2 ∧
        (s.tx 1).readSet = [⟨firstWord, 0, 0⟩] :=
    exists_run_of_exec fastRead (by decide +kernel)
  refine ⟨s, hr, hpc, hlock, hreads, ?_⟩
  exact (fast_path_serializable _ hr).1 1 _ 2 hpc hlock.symm ⟨firstWord, 0, 0⟩ (by simp [hreads])

def Writable (_ : Threads Shared Tx ℕ) (l : ℕ × TxCall) (_ : Threads Shared Tx ℕ) : Prop :=
  WritesLow l.2

instance (s : Threads Shared Tx ℕ) (l : ℕ × TxCall) (s' : Threads Shared Tx ℕ) :
    Decidable (Writable s l s') :=
  inferInstanceAs (Decidable (WritesLow l.2))

def firstFilter : BloomFilter := insert kBloomWords (fun _ => 0) (key firstWord)

theorem popcount_firstFilter : ∀ i < kBloomWords, popcountWord (firstFilter i) ≤ 32 := by
  decide +kernel

section Alone

variable {σ : Shared} {x : Tx}

def alone (p : Shared × Tx) : Option (Shared × Tx) := access p.1 p.2

theorem reaches_popcount (hsmall : ∀ i < kBloomWords, popcountWord (σ.gGc i) ≤ 32) {i n : ℕ}
    (hi : i < kBloomWords) (hn : n ≤ 32 * i) :
    Reaches alone (σ, { x with pc := .popcount i n }) (σ, { x with pc := .release }) := by
  obtain ⟨d, hd⟩ : ∃ d, i + d + 1 = kBloomWords := ⟨kBloomWords - i - 1, by omega⟩
  induction d generalizing i n with
  | zero =>
      have hword := hsmall i hi
      have hlast : ¬ i + 1 < kBloomWords := by omega
      have hhalf : ¬ kBloomWords * 64 / 2 < n + popcountWord (σ.gGc i) := by
        have : kBloomWords * 64 / 2 = 32 * kBloomWords := rfl
        omega
      refine .tail .refl ?_
      simp [alone, access, Tx.counted, hlast, hhalf]
  | succ d ih =>
      have hword := hsmall i hi
      have hnext : i + 1 < kBloomWords := by omega
      refine .head (σ, { x with pc := .popcount (i + 1) (n + popcountWord (σ.gGc i)) }) ?_
        (ih hnext (by omega) (by omega))
      simp [alone, access, Tx.counted, hnext]

/-- A writer of the first word, from its compare-and-swap to the end of `commit`. -/
theorem reaches_commit (hlock : σ.globalLock = x.snapshot)
    (hw : x.writeSet = [(firstWord, 1)])
    (hgc : insert kBloomWords σ.gGc (key firstWord) = firstFilter) :
    Reaches alone (σ, { x with pc := .commitCas })
      ({ σ with
          globalLock := x.snapshot + 2
          gGc := firstFilter
          mem := Function.update σ.mem firstWord 1
          writers := σ.writers + 1
          log := enter σ.log (σ.writers + 1) x.ops }, {}) := by
  have hstart : Reaches alone (σ, { x with pc := .commitCas })
      ({ acquire σ x with
          gGc := firstFilter
          mem := Function.update σ.mem firstWord 1 }, { x with pc := .popcount 0 0 }) := by
    rw [← hgc]
    refine .of_iterate 4 ?_
    simp [alone, access, hlock, hw, acquire, Tx.writeBackFrom, Tx.insertFrom,
      BloomFilter.insert]
  have hcount := reaches_popcount (σ := { acquire σ x with
    gGc := firstFilter, mem := Function.update σ.mem firstWord 1 }) (x := x)
    popcount_firstFilter (i := 0) (n := 0) (by decide) le_rfl
  exact (hstart.trans hcount).tail rfl

end Alone

section Wrap

variable {s₀ s : Threads Shared Tx ℕ} {t : ℕ} {σ σ' : Shared} {x x' : Tx}

theorem run_call (c : TxCall) (hc : WritesLow c) (hr : Run step Writable s₀ (s.put t σ x))
    (h : next σ x t c = some (σ', x')) : Run step Writable s₀ (s.put t σ' x') :=
  Threads.run_put_of_next_ok (fun _ _ => hc) hr h

theorem run_alone (hr : Run step Writable s₀ (s.put t σ x))
    (h : Reaches alone (σ, x) (σ', x')) : Run step Writable s₀ (s.put t σ' x') :=
  Threads.run_put_of_reaches_ok (fun _ _ => show WritesLow .tau from trivial) hr h

theorem run_setFirst_once (hr : Run step Writable s₀ s) (hpc : (s.tx 2).pc = .out)
    (heven : isOdd s.shared.globalLock = false)
    (hgc : insert kBloomWords s.shared.gGc (key firstWord) = firstFilter) :
    Run step Writable s₀ (s.put 2
      { s.shared with
        globalLock := s.shared.globalLock + 2
        gGc := firstFilter
        mem := Function.update s.shared.mem firstWord 1
        writers := s.shared.writers + 1
        log := enter s.shared.log (s.shared.writers + 1) [.write firstWord 1] } {}) := by
  have hlow : firstWord.val >>> 47 = 0 := by decide
  rw [← Threads.put_self s 2] at hr
  have h₁ : Run step Writable s₀ (s.put 2 s.shared { s.tx 2 with pc := .beginClock }) :=
    run_call .begin trivial hr (by simp [next, hpc])
  have h₂ : Run step Writable s₀ (s.put 2 s.shared
      { pc := .body, snapshot := s.shared.globalLock
        active := true, gen := s.shared.gGcGen }) := by
    refine run_alone h₁ (.of_iterate 2 ?_)
    simp [alone, access, Tx.begin, heven]
  have h₃ := run_call (.write firstWord 1) (by decide) h₂ rfl
  have h₄ := run_call .commit trivial h₃ rfl
  exact run_alone h₄ (reaches_commit rfl rfl hgc)

/-- Any number of these transactions, one after another: the lock moves by two each time, and
thread 1 does not move. -/
theorem run_setFirst (hr : Run step Writable s₀ s) (hpc : (s.tx 2).pc = .out)
    (heven : isOdd s.shared.globalLock = false)
    (hgc : insert kBloomWords s.shared.gGc (key firstWord) = firstFilter) (n : ℕ) :
    ∃ s', Run step Writable s₀ s' ∧ (s'.tx 2).pc = .out ∧
      isOdd s'.shared.globalLock = false ∧
      s'.shared.globalLock = s.shared.globalLock + BitVec.ofNat 64 (2 * (n + 1)) ∧
      insert kBloomWords s'.shared.gGc (key firstWord) = firstFilter ∧
      s'.shared.writers = s.shared.writers + (n + 1) ∧
      s'.shared.log s'.shared.writers = some [.write firstWord 1] ∧
      s'.shared.ro = s.shared.ro ∧ s'.tx 1 = s.tx 1 := by
  have hkeep : insert kBloomWords firstFilter (key firstWord) = firstFilter :=
    insert_of_contains (contains_insert_self _ _ _)
  induction n with
  | zero =>
      refine ⟨_, run_setFirst_once hr hpc heven hgc, ?_, isOdd_add_two heven, rfl, hkeep, rfl, ?_,
        rfl, ?_⟩
      · rw [Threads.put_tx_self]
      · exact enter_self _ _ _
      · exact Threads.put_tx_of_ne (by decide)
  | succ n ih =>
      obtain ⟨s', hr', hpc', heven', hlock, hgc', hwriters, -, hro, htx⟩ := ih
      refine ⟨_, run_setFirst_once hr' hpc' heven' hgc', ?_, isOdd_add_two heven', ?_, hkeep, ?_,
        ?_, hro, ?_⟩
      · rw [Threads.put_tx_self]
      · simp only [Threads.put_shared, hlock]
        rw [BitVec.add_assoc, show (2 : Word) = BitVec.ofNat 64 2 from rfl,
          ← BitVec.ofNat_add]
        congr 2
      · simp only [Threads.put_shared, hwriters]
        omega
      · exact enter_self _ _ _
      · exact (Threads.put_tx_of_ne (by decide)).trans htx

/-- The lock wraps: after `2 ^ 63` writers it has its old value again, and a transaction that
began before them commits although the word it read has changed. -/
theorem exists_stale_commit : ∃ s, Run step Writable (init fun _ => 0) s ∧
    ¬∃ m, SerialRun (fun _ => 0) (schedule s.shared.log s.shared.ro s.shared.writers) m := by
  obtain ⟨s₁, h₁, hpc₁, hlock₁, hgc₁, hro₁, hx₁⟩ :
      ∃ s₁, exec step Writable (init fun _ => 0)
          ([(1, .begin), (1, .tau), (1, .tau), (1, .read firstWord)] ++ taus 1 4) = some s₁ ∧
        (s₁.tx 2).pc = .out ∧ s₁.shared.globalLock = 0 ∧ s₁.shared.gGc = (fun _ => 0) ∧
        s₁.shared.ro = [] ∧
        s₁.tx 1 =
          { pc := .body, active := true, readSet := [⟨firstWord, 0, 0⟩], readBf := firstFilter
            ops := [.read firstWord 0] } := ⟨_, rfl, rfl, rfl, rfl, rfl, rfl⟩
  obtain ⟨s₂, h₂, -, -, hlock₂, -, hwriters, hset, hro₂, hx₂⟩ :=
    run_setFirst (run_of_exec h₁) hpc₁ (by rw [hlock₁]; rfl) (by rw [hgc₁]; rfl) (2 ^ 63 - 1)
  have hlock : s₂.shared.globalLock = 0 := by
    rw [hlock₂, hlock₁]
    rfl
  rw [← Threads.put_self s₂ 1, hx₂, hx₁] at h₂
  have h₃ := run_call (.write secondWord 1) (by decide) h₂ rfl
  have h₄ := run_call .commit trivial h₃ rfl
  have h₅ : Run step Writable (init fun _ => 0) (s₂.put 1
      { s₂.shared with
        globalLock := 1
        writers := s₂.shared.writers + 1
        log := enter s₂.shared.log (s₂.shared.writers + 1)
          [.write secondWord 1, .read firstWord 0] }
      { pc := .writeBack [(secondWord, 1)], active := true, readOnly := false
        readSet := [⟨firstWord, 0, 0⟩], writeSet := [(secondWord, 1)], readBf := firstFilter
        ops := [.write secondWord 1, .read firstWord 0] }) := by
    refine run_call .tau trivial h₄ ?_
    simp [next, access, hlock]
    rfl
  refine ⟨_, h₅, ?_⟩
  simp only [Threads.put_shared, hro₂, hro₁]
  refine not_serialRun_of_stale (show (1 : Word) ≠ 0 by decide) (by omega) ?_ (enter_self _ _ _)
  rw [enter_of_ne _ (Nat.lt_succ_self _).ne, hset]

end Wrap

/-- Neither bound can be left out: after a wrap of the lock the committed transactions need not
be a serial run, and a transaction can commit with a write that never reaches memory. -/
theorem stale_commit_and_lost_write :
    (∃ s, Run step Writable (init fun _ => 0) s ∧
      ¬∃ m, SerialRun (fun _ => 0) (schedule s.shared.log s.shared.ro s.shared.writers) m) ∧
    ∃ s, Run step anyStep (init fun _ => 0) s ∧ isOdd s.shared.globalLock = false ∧
      ¬SerialRun (fun _ => 0) (schedule s.shared.log s.shared.ro s.shared.writers)
        s.shared.mem := by
  refine ⟨exists_stale_commit, ?_⟩
  obtain ⟨s, hr, hlock, hro, hwriters, hmem⟩ :
      ∃ s, Run step anyStep (init fun _ => 0) s ∧ isOdd s.shared.globalLock = false ∧
        s.shared.ro = [(0, [.write skippedWord 1])] ∧ s.shared.writers = 0 ∧
        s.shared.mem skippedWord = 0 :=
    exists_run_of_exec [(1, .begin), (1, .tau), (1, .tau), (1, .write skippedWord 1), (1, .commit)]
      (by decide +kernel)
  refine ⟨s, hr, hlock, ?_⟩
  rw [hro, hwriters]
  rintro ⟨-, hlast⟩
  have hset : s.shared.mem skippedWord = 1 := by
    rw [← hlast]
    rfl
  rw [hmem] at hset
  exact absurd hset (by decide)

end NOrecBF
