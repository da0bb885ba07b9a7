import ClangTM.VersionLock.Invariant

/-!
# The snapshot of a transaction, through its commit

Before a transaction commits, its valid reads are the committed memory at a clock
value. Once it has committed, its own writes are part of that memory, and what it
has read is the memory that the other transactions make up. `memWithout` is that
memory, and `Kept` is the form in which a read stays valid through the commit.
-/

namespace VersionLock

open Serial

variable {A V L T : Type*}

def State.logWithout (s : State A V L T) (t : T) : ℕ → Option (Trace A V) :=
  fun c => if (s.tx t).cv = some c then none else s.log c

variable [DecidableEq A]

def State.memWithout (m₀ : A → V) (s : State A V L T) (t : T) : ℕ → A → V :=
  memAt m₀ (s.logWithout t)

/-- The recorded read `r` of `t` is part of what the others have committed up to
`e`, and nobody else can still commit a write to its word up to there. -/
structure Kept (lock : A → L) (m₀ : A → V) (s : State A V L T) (t : T) (r : Entry A V)
    (e : ℕ) : Prop where
  quiet : Quiet s t (lock r.addr) e
  value : s.memWithout m₀ t e r.addr = r.val

variable {lock : A → L} {m₀ : A → V} {s s' : State A V L T} {t u : T}

/-- A transaction that has not committed has no entry in the log. -/
theorem Inv.logWithout_eq (h : Inv lock m₀ s) (hd : (s.tx t).done = false) :
    s.logWithout t = s.log := by
  funext c
  rw [State.logWithout]
  split
  · next hcv => exact (h.pending t c hcv hd).symm
  · rfl

theorem Inv.memWithout_eq (h : Inv lock m₀ s) (hd : (s.tx t).done = false) :
    s.memWithout m₀ t = s.mem m₀ := by
  rw [State.memWithout, h.logWithout_eq hd, State.mem]

theorem Safe.kept {r : Entry A V} {e : ℕ} (hsafe : Safe lock s t r e) (h : Inv lock m₀ s)
    (hd : (s.tx t).done = false) (hr : r ∈ (s.tx t).reads) (hle : r.ver ≤ e) :
    Kept lock m₀ s t r e where
  quiet u c hu hc hce := hsafe.quiet u c hu hc (by omega)
  value := by
    rw [h.memWithout_eq hd, ← (h.entry t hd r hr).2.1]
    exact memAt_eq_of_unwritten hle hsafe.unwritten

variable [DecidableEq L] [DecidableEq T]

/-- A kept read stays so, also when its own transaction commits. -/
theorem Kept.step {r : Entry A V} {e : ℕ} (hk : Kept lock m₀ s u r e) (h : Inv lock m₀ s)
    (hs : Step lock m₀ s t s') (hcv : (s'.tx u).cv = (s.tx u).cv) (he : e ≤ s.clock) :
    Kept lock m₀ s' u r e where
  quiet := hk.quiet.step hs he
  value := by
    rw [← hk.value]
    rcases hs.log_cases with hl | ⟨c, hc, hd, hl, -, hown, -⟩
    · have hlog : s'.logWithout u = s.logWithout u := by
        funext n
        rw [State.logWithout, State.logWithout, hcv, hl]
      rw [State.memWithout, hlog, State.memWithout]
    · by_cases hu : u = t
      · subst hu
        have hlog : s'.logWithout u = s.logWithout u := by
          funext n
          rw [State.logWithout, State.logWithout, hcv, hl, enter_apply]
          grind
        rw [State.memWithout, hlog, State.memWithout]
      · have hne : (s.tx u).cv ≠ some c := fun hcu => hu (h.proto.cvInj u t c hcu hc)
        have hlog : s'.logWithout u = enter (s.logWithout u) c (s.tx t).trace := by
          funext n
          rw [State.logWithout, hcv, hl, enter_apply, enter_apply, State.logWithout]
          grind
        have hnone : s.logWithout u c = none := by
          rw [State.logWithout, if_neg hne, h.pending t c hc hd]
        rw [State.memWithout, hlog]
        cases hw : lastWrite (s.tx t).trace r.addr with
        | none => exact memAt_enter_of_unwritten e hnone hw
        | some v =>
            have hlt : e < c := by
              by_contra hle
              exact hk.quiet t c (Ne.symm hu) hc (by omega) (hown _ v hw)
            rw [memAt_enter_of_lt _ hlt, State.memWithout]

end VersionLock
