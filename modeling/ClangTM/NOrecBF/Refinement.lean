import ClangTM.NOrecBF.Serializability

/-!
# NOrec-BF refines NOrec

Every state that NOrec-BF reaches is, without its filters, one that NOrec reaches. A transaction
that is looking at the global filter may still return on the fast path, begin again, or compare its
read set. In NOrec `validate` has read the clock in the last case, and is about to read it in the
others. The induction is over all choices between the two (`Late`), one for every thread.
-/

namespace NOrecBF

open Serial Transition NOrec

/-- The caller of a `validate` that is looking at the global filter. -/
def Pc.filtering : Pc → Option Caller
  | .validateGen k _ | .validateFilter k _ _ | .validateFast k _ => some k
  | _ => none

/-- The transaction in NOrec, which may be late in reading the clock. -/
def Late (x : Tx) (y : NOrec.Tx) : Prop :=
  y = absTx x ∨ ∃ k, x.pc.filtering = some k ∧ y = { absTx x with pc := .validateClock k }

def Reached (m₀ : WordAddr → Word) (s : Threads Shared Tx ℕ) : Prop :=
  ∀ f : ℕ → NOrec.Tx, (∀ t, Late (s.tx t) (f t)) →
    Run NOrec.step NOrec.Bounded (NOrec.init m₀) { abs s with tx := f }

/-- A step of NOrec depends on the shared state and on its own thread. -/
theorem stepOf_frame (s : State) (t : ℕ) (c : TxCall) {f : ℕ → NOrec.Tx} (hf : f t = s.tx t) :
    stepOf { s with tx := f } t c =
      (stepOf s t c).map fun s' => { s' with tx := Function.update f t (s'.tx t) } := by
  unfold stepOf
  simp only [hf]
  split
  · split <;> simp [State.commitReadOnly, State.setTx, hf]
  · split <;> simp [State.acquire, State.setTx, hf]
  · simp [State.writeBack, hf]
  · simp [State.release, hf]
  · rw [Option.map_map]
    congr
    funext x
    simp [State.setTx]

section Validate

variable {s : State} {t : ℕ} {k : Caller} {y : NOrec.Tx}

theorem setTx_eq (h : s.tx t = y) : s.setTx t y = s := by
  subst h
  simp [State.setTx]

variable (hb : s.writers < 2 ^ 63) (hy : s.tx t = y.validated k s.globalLock)
include hb hy

theorem run_entries {rest : List ReadLogEntry} (h : ∀ r ∈ rest, s.mem r.addr = r.observedVal) :
    Run NOrec.step NOrec.Bounded
      (s.setTx t { y with pc := .validateEntries k s.globalLock rest }) s := by
  induction rest with
  | nil =>
      refine .tail (t, .tau) .refl (Eq.trans ?_ (congrArg some (setTx_eq hy))) ⟨trivial, hb⟩
      cases k <;> simp [NOrec.step, stepOf, State.setTx, NOrec.Tx.look, NOrec.Tx.validated]
  | cons r rest ih =>
      have hrest := ih fun r' hr' => h r' (List.mem_cons_of_mem r hr')
      refine .trans (.tail (t, .tau) .refl ?_ (by exact ⟨trivial, hb⟩)) hrest
      simp [NOrec.step, stepOf, State.setTx, NOrec.Tx.look, h r]

/-- `validate` of NOrec, if the lock is free and the read set is in memory. -/
theorem run_validate (hodd : isOdd s.globalLock = false)
    (h : ∀ r ∈ y.readSet, s.mem r.addr = r.observedVal) :
    Run NOrec.step NOrec.Bounded (s.setTx t { y with pc := .validateClock k }) s := by
  by_cases hnil : y.readSet = []
  · refine .tail (t, .tau) .refl (Eq.trans ?_ (congrArg some (setTx_eq hy))) ⟨trivial, hb⟩
    cases k <;> simp [NOrec.step, stepOf, State.setTx, NOrec.Tx.look, NOrec.Tx.validateTime,
      NOrec.Tx.validated, hodd, hnil]
  · have hrest := run_entries hb hy fun r hr => h r (List.mem_reverse.1 hr)
    refine .trans (.tail (t, .tau) .refl ?_ (by exact ⟨trivial, hb⟩)) hrest
    simp [NOrec.step, stepOf, State.setTx, NOrec.Tx.look, NOrec.Tx.validateTime, hodd, hnil]

end Validate

variable {m₀ : WordAddr → Word} {s : Threads Shared Tx ℕ} {t : ℕ} {c : TxCall} {σ σ' : Shared}
  {x x' : Tx} {k : Caller}

/-- A transaction comes to look at the filter from the load of the clock, or it goes on. -/
theorem late_of_next (h : next σ x t c = some (σ', x')) (hk : x'.pc.filtering = some k) :
    σ' = σ ∧ Late x { absTx x' with pc := .validateClock k } := by
  revert hk
  unfold next access at h
  repeat' split at h
  all_goals try first | obtain ⟨rfl, rfl⟩ := pair_eq h | obtain ⟨w, -, rfl, rfl⟩ := map_pair_eq h
  all_goals try simp only [Tx.begin, Tx.validateTime, Tx.validateWord, Tx.validated, Tx.counted,
    Tx.writeBackFrom, Tx.insertFrom, Tx.readWordNorec, Tx.writeWordNorec]
  all_goals repeat' split
  all_goals simp_all [Pc.filtering, Tx.pushRead, Tx.abortTx, Tx.validateExact, Late, absTx, absPc]

theorem Inv.reads_of_fast (hi : Inv m₀ s)
    (hpc : (s.tx t).pc = .validateFast k s.shared.globalLock) : isOdd s.shared.globalLock = false ∧
      ∀ r ∈ (s.tx t).readSet, s.shared.mem r.addr = r.observedVal := by
  obtain ⟨-, heven, -, hreads⟩ := hi.taken_of_fast hpc rfl
  have hnow : s.shared.mem = memAt m₀ s.shared.log (s.shared.globalLock.toNat / 2) :=
    hi.base.lock.mem_of_even heven
  rw [hnow]
  exact ⟨by simpa [← Bool.not_eq_true, isOdd_iff] using heven, hreads⟩

section Step

variable {f : ℕ → NOrec.Tx} {y : NOrec.Tx} (h : Reached m₀ s)
  (hf : ∀ u, Late ((s.put t σ x).tx u) (f u))
include h hf

/-- The other threads as after the step of `t`, and `t` as before it. -/
theorem Reached.before (hy : Late (s.tx t) y) :
    Run NOrec.step NOrec.Bounded (NOrec.init m₀) (State.setTx { abs s with tx := f } t y) := by
  refine h _ fun u => ?_
  by_cases hu : u = t
  · subst hu
    simpa using hy
  · simpa [hu, Threads.put_tx_of_ne hu] using hf u

theorem Reached.stay (hy : Late (s.tx t) (f t)) :
    Run NOrec.step NOrec.Bounded (NOrec.init m₀) { abs s with tx := f } := by
  have hrun := h.before hf hy
  rwa [setTx_eq rfl] at hrun

end Step

theorem Reached.put (h : Reached m₀ s) (hi : Inv m₀ s)
    (hnext : next s.shared (s.tx t) t c = some (σ, x)) (hc : WritesLow c)
    (hb : σ.writers < 2 ^ 63) : Reached m₀ (s.put t σ x) := by
  intro f hf
  have hft := hf t
  rw [Threads.put_tx_self] at hft
  rcases hft with hft | ⟨k, hk, hft⟩
  · cases sim_next hnext with
    | stay hsame =>
        have hx : absTx x = absTx (s.tx t) := by
          simpa [abs] using congrFun (congrArg State.tx hsame) t
        rw [hsame]
        exact h.stay hf (.inl (hft.trans hx))
    | move hmove =>
        refine .tail (t, c) (h.before hf (.inl rfl)) ?_ ⟨hc, hb⟩
        refine (stepOf_frame (abs s) t c (by simp [abs])).trans ?_
        rw [show stepOf (abs s) t c = _ from hmove]
        simp [abs, ← hft]
    | fast k time hpc htime hσ hx =>
        subst hσ hx htime
        obtain ⟨hodd, hreads⟩ := hi.reads_of_fast hpc
        refine (h.before hf (.inr ⟨k, by rw [hpc]; rfl, rfl⟩)).trans ?_
        exact run_validate hb (hft.trans absTx_validated) hodd hreads
    | retry k time hpc hσ hx =>
        subst hσ hx
        exact h.stay hf (hft ▸ .inr ⟨k, by rw [hpc]; rfl, rfl⟩)
  · obtain ⟨rfl, hlate⟩ := late_of_next hnext hk
    exact h.stay hf (hft ▸ hlate)

/-- Whatever NOrec-BF does within the bounds, NOrec does too: the same commits with the same reads
and writes, at the same clock values and with the same memory. -/
theorem refines_norec (m₀ : WordAddr → Word) {s : Threads Shared Tx ℕ}
    (hr : Run step Bounded (init m₀) s) :
    Run NOrec.step NOrec.Bounded (NOrec.init m₀) (abs s) := by
  suffices h : Reached m₀ s from h _ fun _ => .inl rfl
  induction hr with
  | refl =>
      intro f hf
      obtain rfl : f = fun _ => {} :=
        funext fun t => (hf t).resolve_right (by simp [init, Pc.filtering])
      exact .refl
  | tail l hr hs hb ih =>
      obtain ⟨σ, x, hnext, rfl⟩ := Threads.step_eq_some hs
      exact ih.put (Inv.run hr) hnext hb.1 hb.2

theorem refines_norec_fast : ∃ s, Run step Bounded (init fun _ => 0) s ∧
    (s.tx 1).pc = .readAgain secondWord ∧
    Run NOrec.step NOrec.Bounded (NOrec.init fun _ => 0) (abs s) := by
  obtain ⟨s, hr, hpc⟩ :
      ∃ s, Run step Bounded (init fun _ => 0) s ∧ (s.tx 1).pc = .readAgain secondWord :=
    exists_run_of_exec (fastRead ++ taus 1 1) (by decide +kernel)
  exact ⟨s, hr, hpc, refines_norec _ hr⟩

end NOrecBF
