import ClangTM.Certify.Basic

/-!
# The invariant of the certifying protocol

What is known of a recorded read is that it was `Seen`, which says nothing once the
version of the lock has grown. A transaction that takes its commit version and then finds
the version of the lock unchanged, and the lock not held by another, knows more: whoever
commits a write to the word later has taken a larger commit version. The read is then
`Kept` below its own commit version (`Inv.kept_of_check`), and stays so.
-/

namespace Certify

open Serial VersionLock

variable {A V L T : Type*} [DecidableEq A]

structure Inv (lock : A → L) (m₀ : A → V) (s : State A V L T) : Prop where
  cvLe : ∀ t c, (s.tx t).cv = some c → 0 < c ∧ c ≤ s.clock
  cvInj : ∀ t u c, (s.tx t).cv = some c → (s.tx u).cv = some c → t = u
  pending : ∀ t c, (s.tx t).cv = some c → (s.tx t).done = false → s.log c = none
  committed : ∀ t, (s.tx t).done = true →
    ∃ c, (s.tx t).cv = some c ∧ s.log c = some (s.tx t).trace
  logLe : ∀ c u, s.log c = some u → 0 < c ∧ c ≤ s.clock
  stampLe : ∀ ℓ, s.stamp ℓ ≤ s.clock
  ownLt : ∀ t c ℓ, (s.tx t).cv = some c → s.owner ℓ = some t → s.stamp ℓ < c
  seen : ∀ t, ∀ r ∈ (s.tx t).reads, Seen lock m₀ s r.addr r.ver r.val
  seenLt : ∀ t c, (s.tx t).cv = some c → ∀ r ∈ (s.tx t).reads,
    s.ver (lock r.addr) = r.ver → s.stamp (lock r.addr) < c
  covered : ∀ t, ∀ p ∈ external (s.tx t).trace,
    ∃ r ∈ (s.tx t).reads, r.addr = p.1 ∧ r.val = p.2
  self : ∀ t, SelfConsistent (s.tx t).trace
  logStamp : ∀ c u a w, s.log c = some u → lastWrite u a = some w →
    c ≤ s.stamp (lock a) ∨
      ∃ t, s.owner (lock a) = some t ∧ (s.tx t).done = true ∧ (s.tx t).cv = some c
  logLegal : ∀ c u, s.log c = some u → Legal (s.mem m₀ (c - 1)) u
  logQuiet : ∀ c u a, s.log c = some u → Touches u a →
    ∀ t d, (s.tx t).cv = some d → d < c → s.owner (lock a) ≠ some t
  roLegal : ∀ r ∈ s.ro, r.1 ≤ s.clock ∧ Legal (s.mem m₀ r.1) r.2 ∧
    ∀ a, lastWrite r.2 a = none
  roQuiet : ∀ r ∈ s.ro, ∀ p ∈ external r.2,
    ∀ t d, (s.tx t).cv = some d → d ≤ r.1 → s.owner (lock p.1) ≠ some t

namespace Inv

variable {lock : A → L} {m₀ : A → V} {s : State A V L T} {t : T}

/-- A transaction without a commit version has not committed. -/
theorem not_done (h : Inv lock m₀ s) (hcv : (s.tx t).cv = none) :
    (s.tx t).done = false := by
  cases hd : (s.tx t).done with
  | false => rfl
  | true =>
      obtain ⟨c, hc, -⟩ := h.committed t hd
      simp [hcv] at hc

theorem log_above (h : Inv lock m₀ s) {c : ℕ} (hc : s.clock < c) : s.log c = none := by
  cases hu : s.log c with
  | none => rfl
  | some u =>
      have := (h.logLe c u hu).2
      omega

/-- Above the stamp of a lock that no committed transaction holds, the log does not write
the words of that lock. -/
theorem unwritten_above (h : Inv lock m₀ s) {a : A} (hset : Settled s (lock a)) {c : ℕ}
    {u : Trace A V} (hc : s.stamp (lock a) < c) (hu : s.log c = some u) :
    lastWrite u a = none := by
  cases hw : lastWrite u a with
  | none => rfl
  | some w =>
      rcases h.logStamp c u a w hu hw with hle | ⟨t, ho, hd, -⟩
      · omega
      · simp [hset t ho] at hd

/-- The committed value of a word is the one at the stamp of its lock, and at every
commit version from there on. -/
theorem mem_of_stamp (h : Inv lock m₀ s) {a : A} (hset : Settled s (lock a)) {e : ℕ}
    (hlo : s.stamp (lock a) ≤ e) (hhi : e ≤ s.clock) :
    s.mem m₀ s.clock a = s.mem m₀ e a :=
  memAt_eq_of_unwritten hhi fun _ _ hc _ hu => h.unwritten_above hset (by omega) hu

omit [DecidableEq A] in
/-- Whoever has not committed and alone holds a lock leaves it settled. -/
theorem settled_of_own (hd : (s.tx t).done = false) {ℓ : L}
    (hown : ∀ u, s.owner ℓ = some u → u = t) : Settled s ℓ := by
  intro u hu
  rw [hown u hu, hd]

section

variable (h : Inv lock m₀ s)
include h

/-- Validation of one read by a transaction that has its commit version: the lock is free
or its own, at the version recorded. -/
theorem kept_of_check (hd : (s.tx t).done = false) {c : ℕ} (hcv : (s.tx t).cv = some c)
    {r : Entry A V} (hr : r ∈ (s.tx t).reads) (hown : ∀ u, s.owner (lock r.addr) = some u → u = t)
    (hver : s.ver (lock r.addr) = r.ver) : Kept lock m₀ s t r (c - 1) where
  quiet u _ hu _ _ ho := hu (hown u ho)
  value := by
    have hset := settled_of_own hd hown
    have hstamp := h.seenLt t c hcv r hr hver
    have hclock := (h.cvLe t c hcv).2
    rw [← h.mem_of_stamp hset (by omega) (by omega)]
    exact (h.seen t r hr).value hver hset

/-- The same for a transaction without a commit version, at the current clock value. -/
theorem kept_of_check_readOnly (hd : (s.tx t).done = false) {r : Entry A V}
    (hr : r ∈ (s.tx t).reads) (hown : ∀ u, s.owner (lock r.addr) = some u → u = t)
    (hver : s.ver (lock r.addr) = r.ver) : Kept lock m₀ s t r s.clock where
  quiet u _ hu _ _ ho := hu (hown u ho)
  value := (h.seen t r hr).value hver (settled_of_own hd hown)

/-- A transaction is legal on a memory that its recorded reads are part of. -/
theorem legal_of_kept {e : ℕ} (hkept : ∀ r ∈ (s.tx t).reads, Kept lock m₀ s t r e) :
    Legal (s.mem m₀ e) (s.tx t).trace := by
  rw [legal_iff]
  refine ⟨h.self t, fun p hp => ?_⟩
  obtain ⟨r, hr, ha, hval⟩ := h.covered t p hp
  rw [← ha, ← hval]
  exact (hkept r hr).value

/-- What the commit of `t` makes of a word that it writes. -/
theorem mem_commit_written {c : ℕ} (hcv : (s.tx t).cv = some c) {a : A} {v : V}
    (hown : s.owner (lock a) = some t) (hw : lastWrite (s.tx t).trace a = some v) :
    memAt m₀ (enter s.log c (s.tx t).trace) s.clock a = v := by
  obtain ⟨hpos, hle⟩ := h.cvLe t c hcv
  refine memAt_enter_of_written hpos hle hw fun d u hlt _ hu => ?_
  cases hwu : lastWrite u a with
  | none => rfl
  | some w => exact absurd hown (h.logQuiet d u a hu (.inl ⟨w, hwu⟩) t c hcv hlt)

/-- The committed transactions, update transactions by commit version and read-only ones
at the clock value they are placed at, are a serial run. -/
theorem serialRun (n : ℕ) : SerialRun m₀ (schedule s.log s.ro n) (s.mem m₀ n) :=
  schedule_serialRun n (fun c w _ _ hw => h.logLegal c w hw)
    fun r hr => (h.roLegal r hr).2

end

theorem init {m₀ : A → V} {s : State A V L T} (hstamp : ∀ ℓ, s.stamp ℓ ≤ s.clock)
    (hlog : ∀ c, s.log c = none) (hro : s.ro = []) (htx : ∀ t, s.tx t = {}) :
    Inv lock m₀ s where
  cvLe := by simp [htx]
  cvInj := by simp [htx]
  pending := by simp [htx]
  committed := by simp [htx]
  logLe := by simp [hlog]
  stampLe := hstamp
  ownLt := by simp [htx]
  seen := by simp [htx]
  seenLt := by simp [htx]
  covered := by simp [htx]
  self := by simp [htx, SelfConsistent]
  logStamp := by simp [hlog]
  logLegal := by simp [hlog]
  logQuiet := by simp [hlog]
  roLegal := by simp [hro]
  roQuiet := by simp [hro]

end Inv

attribute [local grind =] Function.update_apply

variable [DecidableEq L] [DecidableEq T]

variable {lock : A → L} {m₀ : A → V} {s s' : State A V L T} {t u : T}

namespace Step

section

variable (hs : Step lock m₀ s t s')
include hs

theorem clock_le : s.clock ≤ s'.clock := by
  cases hs <;> grind

theorem tx_of_ne (hne : u ≠ t) : s'.tx u = s.tx u := by
  cases hs <;> grind

/-- A transaction's locks are its own business. -/
theorem owner_iff_of_ne (hne : u ≠ t) (ℓ : L) : s'.owner ℓ = some u ↔ s.owner ℓ = some u := by
  cases hs <;> grind

/-- A commit version that was not there before the move is above the clock. -/
theorem cv_new {c : ℕ} (hc : (s'.tx u).cv = some c) : (s.tx u).cv = some c ∨ s.clock < c := by
  cases hs <;> grind

/-- A transaction comes to hold a lock only while it has no commit version. -/
theorem owner_new {ℓ : L} (ho : s'.owner ℓ = some u) (hn : s.owner ℓ ≠ some u) :
    u = t ∧ (s'.tx u).cv = none := by
  cases hs <;> grind

/-- Seen from a clock value in the past, who holds a lock with a commit version held it
before the move. -/
theorem owner_back {ℓ : L} {c : ℕ} (hc : (s'.tx u).cv = some c) (hcl : c ≤ s.clock)
    (ho : s'.owner ℓ = some u) : (s.tx u).cv = some c ∧ s.owner ℓ = some u := by
  have hcv : (s.tx u).cv = some c := by
    rcases hs.cv_new hc with h | h
    · exact h
    · omega
  refine ⟨hcv, ?_⟩
  by_contra hn
  have := (hs.owner_new ho hn).2
  simp [hc] at this

/-- What a move does to the log: nothing, or it enters the trace of the transaction that
moves. -/
theorem log_cases :
    s'.log = s.log ∨ ∃ c, (s.tx t).cv = some c ∧ (s.tx t).done = false ∧
      s'.log = enter s.log c (s.tx t).trace ∧
      (∀ r ∈ (s.tx t).reads, Kept lock m₀ s t r (c - 1)) ∧
      (∀ a v, lastWrite (s.tx t).trace a = some v → s.owner (lock a) = some t) ∧
      (s'.tx t).done = true := by
  cases hs with
  | commit c hcv hd hkept hown => exact .inr ⟨c, hcv, hd, rfl, hkept, hown, by simp⟩
  | _ => exact .inl rfl

/-- Lock versions only grow. -/
theorem ver_le (ℓ : L) : s.ver ℓ ≤ s'.ver ℓ := by
  cases hs <;> grind

/-- Nobody but its holder changes the version of a lock. -/
theorem ver_eq (hne : u ≠ t) {ℓ : L} (ho : s.owner ℓ = some u) : s'.ver ℓ = s.ver ℓ := by
  cases hs <;> grind

/-- The stamp of a lock changes only together with its version. -/
theorem stamp_eq {ℓ : L} (hver : s'.ver ℓ = s.ver ℓ) : s'.stamp ℓ = s.stamp ℓ := by
  cases hs <;> grind

end

/-- The committed memory changes at a word only when its holder commits, and not below
the version it commits with. -/
theorem mem_eq (h : Inv lock m₀ s) (hs : Step lock m₀ s t s') (n : ℕ) (a : A)
    (hq : ∀ c, (s.tx t).cv = some c → (s.tx t).done = false → c ≤ n →
      s.owner (lock a) ≠ some t) :
    s'.mem m₀ n a = s.mem m₀ n a := by
  rcases hs.log_cases with hl | ⟨c, hcv, hd, hl, -, hown, -⟩
  · simp [State.mem, hl]
  · rw [State.mem, hl]
    cases hw : lastWrite (s.tx t).trace a with
    | none => exact memAt_enter_of_unwritten n (h.pending t c hcv hd) hw
    | some v =>
        have : n < c := by
          by_contra hn
          exact hq c hcv hd (by omega) (hown a v hw)
        rw [memAt_enter_of_lt _ this, State.mem]

/-- The current committed value of a word changes only when its holder commits. -/
theorem mem_clock_eq (h : Inv lock m₀ s) (hs : Step lock m₀ s t s') (a : A)
    (ho : (s.tx t).done = false → s.owner (lock a) ≠ some t ∨ (s'.tx t).done = false) :
    s'.mem m₀ s'.clock a = s.mem m₀ s.clock a := by
  have hlog : s'.mem m₀ s'.clock a = s.mem m₀ s'.clock a := by
    rcases hs.log_cases with hl | ⟨c, -, hd, -, -, -, hd'⟩
    · simp [State.mem, hl]
    · rcases ho hd with ho' | ho'
      · exact hs.mem_eq h _ a fun _ _ _ _ => ho'
      · simp [hd'] at ho'
  rw [hlog]
  cases hs with
  | tick | skip => exact congrFun (memAt_succ_of_none (h.log_above (Nat.lt_succ_self _))) a
  | _ => rfl

/-- A lock that is settled after a move that keeps its version was settled before. -/
theorem settled_back (h : Inv lock m₀ s) (hs : Step lock m₀ s t s') {ℓ : L}
    (hver : s'.ver ℓ = s.ver ℓ) (hset : Settled s' ℓ) : Settled s ℓ := by
  have := h.committed
  unfold Settled at *
  cases hs <;> grind

end Step

theorem Quiet.step {ℓ : L} {e : ℕ} (hq : Quiet s u ℓ e) (hs : Step lock m₀ s t s')
    (he : e ≤ s.clock) : Quiet s' u ℓ e := by
  intro v c hv hc hce ho
  obtain ⟨hc', ho'⟩ := hs.owner_back hc (by omega) ho
  exact hq v c hv hc' hce ho'

/-- A kept read stays so whatever the others do, and whatever its own transaction does
with a commit version above. -/
theorem Kept.step {r : Entry A V} {e : ℕ} (hk : Kept lock m₀ s u r e) (h : Inv lock m₀ s)
    (hs : Step lock m₀ s t s') (he : e ≤ s.clock)
    (hself : u = t → ∀ c, (s.tx u).cv = some c → e < c) : Kept lock m₀ s' u r e where
  quiet := hk.quiet.step hs he
  value := by
    rw [← hk.value]
    refine hs.mem_eq h _ _ fun c hcv _ hle => ?_
    by_cases hu : t = u
    · subst hu
      have := hself rfl c hcv
      omega
    · exact hk.quiet t c hu hcv hle

/-- What was seen of a word stays so through the moves of all transactions. -/
theorem Seen.step {a : A} {n : ℕ} {v : V} (h : Inv lock m₀ s)
    (hseen : Seen lock m₀ s a n v) (hs : Step lock m₀ s t s') : Seen lock m₀ s' a n v where
  le := hseen.le.trans (hs.ver_le _)
  value := by
    intro hver hset
    have hle := hs.ver_le (lock a)
    have hn := hseen.le
    have hback := hs.settled_back h (by omega) hset
    rw [← hseen.value (by omega) hback]
    refine hs.mem_clock_eq h a fun hd => ?_
    cases hd' : (s'.tx t).done with
    | false => exact .inr rfl
    | true =>
        refine .inl fun ho => ?_
        unfold Settled at hset
        cases hs <;> grind

namespace Step

section

variable (h : Inv lock m₀ s) (hs : Step lock m₀ s t s')
include h hs

theorem cvLe (u : T) (c : ℕ) : (s'.tx u).cv = some c → 0 < c ∧ c ≤ s'.clock := by
  have := h.cvLe
  cases hs <;> grind

theorem cvInj (u v : T) (c : ℕ) : (s'.tx u).cv = some c → (s'.tx v).cv = some c → u = v := by
  have := h.cvLe
  have := h.cvInj
  cases hs <;> grind

theorem pending (u : T) (c : ℕ) :
    (s'.tx u).cv = some c → (s'.tx u).done = false → s'.log c = none := by
  have := h.cvInj
  have := h.pending
  have := h.log_above (Nat.lt_succ_self _)
  cases hs <;> grind

theorem committed (u : T) :
    (s'.tx u).done = true →
      ∃ c, (s'.tx u).cv = some c ∧ s'.log c = some (s'.tx u).trace := by
  have := h.committed
  have := h.pending
  have := h.cvInj
  cases hs <;> grind

theorem logLe (c : ℕ) (w : Trace A V) : s'.log c = some w → 0 < c ∧ c ≤ s'.clock := by
  have := h.cvLe
  have := h.logLe
  cases hs <;> grind

theorem stampLe (ℓ : L) : s'.stamp ℓ ≤ s'.clock := by
  have := h.cvLe
  have := h.stampLe
  cases hs <;> grind

theorem ownLt (u : T) (c : ℕ) (ℓ : L) :
    (s'.tx u).cv = some c → s'.owner ℓ = some u → s'.stamp ℓ < c := by
  have := h.stampLe
  have := h.ownLt
  cases hs <;> grind

theorem seen (u : T) : ∀ r ∈ (s'.tx u).reads, Seen lock m₀ s' r.addr r.ver r.val := by
  have hold : ∀ r ∈ (s.tx u).reads, Seen lock m₀ s' r.addr r.ver r.val :=
    fun r hr => (h.seen u r hr).step h hs
  intro r hr
  cases hs with
  | read a n v hcv hw hseen =>
      by_cases hu : u = t
      · subst hu
        rw [State.put_tx_self, List.mem_cons] at hr
        rcases hr with rfl | hr
        · exact hseen.step h (.read a n v hcv hw hseen)
        · exact hold r hr
      · rw [State.put_tx_of_ne _ _ _ _ hu] at hr
        exact hold r hr
  | _ => exact hold r (by grind)

theorem seenLt (u : T) (c : ℕ) (hc : (s'.tx u).cv = some c) :
    ∀ r ∈ (s'.tx u).reads,
      s'.ver (lock r.addr) = r.ver → s'.stamp (lock r.addr) < c := by
  intro r hr hver
  have hle : ∀ r ∈ (s.tx u).reads, r.ver ≤ s.ver (lock r.addr) :=
    fun r hr => (h.seen u r hr).le
  have hgrow := hs.ver_le (lock r.addr)
  have hstamp := hs.stamp_eq (ℓ := lock r.addr)
  have := h.stampLe (lock r.addr)
  have := h.seenLt u
  cases hs <;> grind

theorem covered (u : T) :
    ∀ p ∈ external (s'.tx u).trace,
      ∃ r ∈ (s'.tx u).reads, r.addr = p.1 ∧ r.val = p.2 := by
  have hcov := h.covered
  cases hs with
  | read a n v hcv hw hseen =>
      intro p hp
      by_cases hu : u = t
      · subst hu
        simp only [State.put_tx_self, external_read_of_none hw, List.mem_cons] at hp ⊢
        rcases hp with rfl | hp
        · exact ⟨_, .inl rfl, rfl, rfl⟩
        · obtain ⟨r, hr, heq⟩ := hcov u p hp
          exact ⟨r, .inr hr, heq⟩
      · simp only [State.put_tx_of_ne _ _ _ _ hu] at hp ⊢
        exact hcov u p hp
  | _ => grind [external]

theorem self (u : T) : SelfConsistent (s'.tx u).trace := by
  have := h.self
  cases hs <;> grind [SelfConsistent]

theorem logStamp (c : ℕ) (w : Trace A V) (a : A) (x : V) :
    s'.log c = some w → lastWrite w a = some x → c ≤ s'.stamp (lock a) ∨
      ∃ u, s'.owner (lock a) = some u ∧ (s'.tx u).done = true ∧ (s'.tx u).cv = some c := by
  have := h.logStamp
  have := h.ownLt
  have := h.not_done (t := t)
  cases hs <;> grind

theorem logLegal (c : ℕ) (w : Trace A V) (hw : s'.log c = some w) :
    Legal (s'.mem m₀ (c - 1)) w := by
  have hold : s.log c = some w → Legal (s'.mem m₀ (c - 1)) w := by
    intro hw'
    refine (h.logLegal c w hw').congr fun p hp => hs.mem_eq h _ _ fun d hd _ hle => ?_
    have := (h.logLe c w hw').1
    exact h.logQuiet c w p.1 hw' (.inr ⟨p.2, hp⟩) t d hd (by omega)
  rcases hs.log_cases with hl | ⟨c', hcv, hd, hl, hkept, -, -⟩
  · exact hold (hl ▸ hw)
  · rw [hl, enter_apply] at hw
    split_ifs at hw with hc
    · subst hc
      obtain rfl := Option.some.inj hw
      have hpos := (h.cvLe t c hcv).1
      have hmem : s'.mem m₀ (c - 1) = s.mem m₀ (c - 1) := by
        rw [State.mem, hl, memAt_enter_of_lt _ (by omega), State.mem]
      rw [hmem]
      exact h.legal_of_kept hkept
    · exact hold hw

theorem logQuiet (c : ℕ) (w : Trace A V) (a : A) (hw : s'.log c = some w) (ha : Touches w a) (v : T)
    (d : ℕ) (hd : (s'.tx v).cv = some d) (hlt : d < c) : s'.owner (lock a) ≠ some v := by
  intro ho
  have hold : s.log c = some w → False := by
    intro hw'
    have := (h.logLe c w hw').2
    obtain ⟨hd', ho'⟩ := hs.owner_back hd (by omega) ho
    exact h.logQuiet c w a hw' ha v d hd' hlt ho'
  rcases hs.log_cases with hl | ⟨c', hcv, hdone, hl, hkept, hown, -⟩
  · exact hold (hl ▸ hw)
  · rw [hl, enter_apply] at hw
    split_ifs at hw with hc
    · subst hc
      obtain rfl := Option.some.inj hw
      have := (h.cvLe t c hcv).2
      obtain ⟨hd', ho'⟩ := hs.owner_back hd (by omega) ho
      have hv : v ≠ t := by
        rintro rfl
        rw [hcv] at hd'
        have := Option.some.inj hd'
        omega
      rcases ha with ⟨x, hx⟩ | ⟨x, hx⟩
      · rw [hown a x hx] at ho'
        exact hv (Option.some.inj ho').symm
      · obtain ⟨r, hr, rfl, -⟩ := h.covered t (a, x) hx
        exact (hkept r hr).quiet v d hv hd' (by omega) ho'
    · exact hold hw

end

/-- What a move does to the read-only transactions: nothing, or it places the one that
moves at a clock value at which its reads are kept. -/
theorem ro_cases (hs : Step lock m₀ s t s') :
    s'.ro = s.ro ∨ ∃ e, s'.ro = (e, (s.tx t).trace) :: s.ro ∧ s'.log = s.log ∧
      (s.tx t).cv = none ∧ e ≤ s.clock ∧ (∀ a, lastWrite (s.tx t).trace a = none) ∧
      ∀ r ∈ (s.tx t).reads, Kept lock m₀ s t r e := by
  cases hs with
  | commitReadOnly e hcv he hro hkept => exact .inr ⟨e, rfl, rfl, hcv, he, hro, hkept⟩
  | _ => exact .inl rfl

theorem roLegal (h : Inv lock m₀ s) (hs : Step lock m₀ s t s') :
    ∀ r ∈ s'.ro, r.1 ≤ s'.clock ∧ Legal (s'.mem m₀ r.1) r.2 ∧
      ∀ a, lastWrite r.2 a = none := by
  have hclock := hs.clock_le
  have hold : ∀ r ∈ s.ro, r.1 ≤ s'.clock ∧ Legal (s'.mem m₀ r.1) r.2 ∧
      ∀ a, lastWrite r.2 a = none := by
    intro r hr
    obtain ⟨hle, hlegal, hw⟩ := h.roLegal r hr
    refine ⟨hle.trans hclock, hlegal.congr fun p hp => ?_, hw⟩
    exact hs.mem_eq h _ _ fun c hcv _ hc => h.roQuiet r hr p hp t c hcv hc
  rcases hs.ro_cases with hro | ⟨e, hro, hlog, hcv, he, hw, hkept⟩
  · rwa [hro]
  · rw [hro, List.forall_mem_cons]
    refine ⟨⟨he.trans hclock, ?_, hw⟩, hold⟩
    rw [State.mem, hlog]
    exact h.legal_of_kept hkept

theorem roQuiet (h : Inv lock m₀ s) (hs : Step lock m₀ s t s') :
    ∀ r ∈ s'.ro, ∀ p ∈ external r.2, ∀ v d, (s'.tx v).cv = some d → d ≤ r.1 →
      s'.owner (lock p.1) ≠ some v := by
  have hold : ∀ r ∈ s.ro, ∀ p ∈ external r.2, ∀ v d, (s'.tx v).cv = some d → d ≤ r.1 →
      s'.owner (lock p.1) ≠ some v := by
    intro r hr p hp v d hd hle ho
    have := (h.roLegal r hr).1
    obtain ⟨hd', ho'⟩ := hs.owner_back hd (by omega) ho
    exact h.roQuiet r hr p hp v d hd' hle ho'
  rcases hs.ro_cases with hro | ⟨e, hro, -, hcv, he, -, hkept⟩
  · rwa [hro]
  · rw [hro, List.forall_mem_cons]
    refine ⟨fun p hp v d hd hle ho => ?_, hold⟩
    obtain ⟨hd', ho'⟩ := hs.owner_back hd (by omega) ho
    obtain ⟨r, hr, hra, -⟩ := h.covered t p hp
    have hv : v ≠ t := by
      rintro rfl
      simp [hcv] at hd'
    rw [← hra] at ho'
    exact (hkept r hr).quiet v d hv hd' (by omega) ho'

end Step

/-- Every move keeps the invariant. -/
theorem Inv.step (h : Inv lock m₀ s) (hs : Step lock m₀ s t s') : Inv lock m₀ s' where
  cvLe := hs.cvLe h
  cvInj := hs.cvInj h
  pending := hs.pending h
  committed := hs.committed h
  logLe := hs.logLe h
  stampLe := hs.stampLe h
  ownLt := hs.ownLt h
  seen := hs.seen h
  seenLt := hs.seenLt h
  covered := hs.covered h
  self := hs.self h
  logStamp := hs.logStamp h
  logLegal := hs.logLegal h
  logQuiet := hs.logQuiet h
  roLegal := hs.roLegal h
  roQuiet := hs.roQuiet h

end Certify
