import ClangTM.Certify.Invariant

/-!
# The invariant of the versioned-lock protocol

A state of the protocol is one of the certifying protocol in which the version of a lock is the
commit version of the transaction that released it last, and its moves are moves there
(`Step.certify`). What `Inv` adds is `entry`: nobody else holds the lock of a word that was read
with a commit version up to the one recorded. A late entry of the log therefore changes nothing
that was read.
-/

namespace VersionLock

open Serial

variable {A V L T : Type*}

/-- The state of the certifying protocol. -/
def State.certify (s : State A V L T) : Certify.State A V L T where
  clock := s.clock
  owner := s.owner
  ver := s.ver
  stamp := s.ver
  log := s.log
  ro := s.ro
  tx := s.tx

variable [DecidableEq A]

structure Inv (lock : A → L) (m₀ : A → V) (s : State A V L T) : Prop where
  proto : Certify.Inv lock m₀ s.certify
  entry : ∀ t, (s.tx t).done = false → ∀ r ∈ (s.tx t).reads,
    r.ver ≤ s.ver (lock r.addr) ∧ s.mem m₀ r.ver r.addr = r.val ∧ Safe lock s t r r.ver
  entryLt : ∀ t c, (s.tx t).cv = some c → ∀ r ∈ (s.tx t).reads, r.ver < c

namespace Inv

variable {lock : A → L} {m₀ : A → V} {s : State A V L T} {t : T}

section

variable (h : Inv lock m₀ s)
include h

theorem cvLe (t : T) (c : ℕ) (hcv : (s.tx t).cv = some c) : 0 < c ∧ c ≤ s.clock :=
  h.proto.cvLe t c hcv

theorem pending (t : T) (c : ℕ) (hcv : (s.tx t).cv = some c) (hd : (s.tx t).done = false) :
    s.log c = none :=
  h.proto.pending t c hcv hd

theorem committed (t : T) (hd : (s.tx t).done = true) :
    ∃ c, (s.tx t).cv = some c ∧ s.log c = some (s.tx t).trace :=
  h.proto.committed t hd

theorem verLe (ℓ : L) : s.ver ℓ ≤ s.clock := h.proto.stampLe ℓ

theorem ownLt (t : T) (c : ℕ) (ℓ : L) (hcv : (s.tx t).cv = some c) (ho : s.owner ℓ = some t) :
    s.ver ℓ < c :=
  h.proto.ownLt t c ℓ hcv ho

theorem covered (t : T) (p : A × V) (hp : p ∈ external (s.tx t).trace) :
    ∃ r ∈ (s.tx t).reads, r.addr = p.1 ∧ r.val = p.2 :=
  h.proto.covered t p hp

/-- A transaction without a commit version has not committed. -/
theorem not_done (hcv : (s.tx t).cv = none) : (s.tx t).done = false := h.proto.not_done hcv

theorem log_above {c : ℕ} (hc : s.clock < c) : s.log c = none := h.proto.log_above hc

/-- Above the version of a lock that no committed transaction holds, the log
does not write the words of that lock. -/
theorem unwritten_above {a : A} (hfree : ∀ u, s.owner (lock a) = some u → (s.tx u).done = false)
    {c : ℕ} {u : Trace A V} (hc : s.ver (lock a) < c) (hu : s.log c = some u) :
    lastWrite u a = none :=
  h.proto.unwritten_above hfree hc hu

/-- The committed value of a word is the one of the version of its lock. -/
theorem mem_ver {a : A} (hfree : ∀ u, s.owner (lock a) = some u → (s.tx u).done = false) :
    s.mem m₀ s.clock a = s.mem m₀ (s.ver (lock a)) a :=
  h.proto.mem_of_stamp hfree le_rfl (h.verLe _)

/-- A valid read is part of the committed memory. -/
theorem kept_of_safe (hd : (s.tx t).done = false) {e : ℕ} {r : Entry A V}
    (hr : r ∈ (s.tx t).reads) (hle : r.ver ≤ e) (hsafe : Safe lock s t r e) :
    Certify.Kept lock m₀ s.certify t r e where
  quiet u c hu hc hce := hsafe.quiet u c hu hc (by omega)
  value := (memAt_eq_of_unwritten hle hsafe.unwritten).trans (h.entry t hd r hr).2.1

/-- Validation of one recorded read: its lock is free or held by the reader, at
the version recorded. -/
theorem safe_of_check (hd : (s.tx t).done = false) {r : Entry A V}
    (hown : ∀ u, s.owner (lock r.addr) = some u → u = t) (hver : s.ver (lock r.addr) ≤ r.ver)
    (e : ℕ) : Safe lock s t r e where
  quiet := fun u _ hu _ _ ho => hu (hown u ho)
  unwritten := by
    intro c w hlo _ hw
    refine h.unwritten_above (fun u hu => ?_) (by omega) hw
    rw [hown u hu, hd]
  version := .inl hver

/-- The committed transactions, update transactions by commit version and
read-only ones at the clock value they are placed at, are a serial run. -/
theorem serialRun (n : ℕ) : SerialRun m₀ (schedule s.log s.ro n) (s.mem m₀ n) :=
  h.proto.serialRun n

end

theorem init {m₀ : A → V} {s : State A V L T} (hver : ∀ ℓ, s.ver ℓ ≤ s.clock)
    (hlog : ∀ c, s.log c = none) (hro : s.ro = []) (htx : ∀ t, s.tx t = {}) :
    Inv lock m₀ s where
  proto := .init hver hlog hro htx
  entry := by simp [htx]
  entryLt := by simp [htx]

end Inv

variable [DecidableEq L] [DecidableEq T]

variable {lock : A → L} {m₀ : A → V} {s s' : State A V L T} {t u : T}

namespace Step

section

variable (hs : Step lock m₀ s t s')
include hs

theorem clock_le : s.clock ≤ s'.clock := by
  cases hs <;> grind

theorem tx_of_ne (hne : u ≠ t) : s'.tx u = s.tx u := by
  cases hs <;> grind

/-- A transaction's locks are its own business. -/
theorem owner_iff_of_ne (hne : u ≠ t) (ℓ : L) : s'.owner ℓ = some u ↔ s.owner ℓ = some u := by
  cases hs <;> grind [Function.update_apply]

/-- A commit version that was not there before the move is above the clock. -/
theorem cv_new {c : ℕ} (hc : (s'.tx u).cv = some c) : (s.tx u).cv = some c ∨ s.clock < c := by
  cases hs <;> grind

/-- A transaction comes to hold a lock only while it has no commit version. -/
theorem owner_new {ℓ : L} (ho : s'.owner ℓ = some u) (hn : s.owner ℓ ≠ some u) :
    u = t ∧ (s'.tx u).cv = none := by
  cases hs <;> grind [Function.update_apply]

/-- Seen from a clock value in the past, who holds a lock with a commit version
held it before the move. -/
theorem owner_back {ℓ : L} {c : ℕ} (hc : (s'.tx u).cv = some c) (hcl : c ≤ s.clock)
    (ho : s'.owner ℓ = some u) : (s.tx u).cv = some c ∧ s.owner ℓ = some u := by
  have hcv : (s.tx u).cv = some c := by
    rcases hs.cv_new hc with h | h
    · exact h
    · omega
  refine ⟨hcv, ?_⟩
  by_contra hn
  have := (hs.owner_new ho hn).2
  simp [hc] at this

/-- What a move does to the log: nothing, or it enters the trace of the
transaction that moves. -/
theorem log_cases :
    s'.log = s.log ∨ ∃ c, (s.tx t).cv = some c ∧ (s.tx t).done = false ∧
      s'.log = enter s.log c (s.tx t).trace ∧
      (∀ r ∈ (s.tx t).reads, Safe lock s t r (c - 1)) ∧
      (∀ a v, lastWrite (s.tx t).trace a = some v → s.owner (lock a) = some t) ∧
      (s'.tx t).done = true := by
  cases hs with
  | commit c hcv hd hsafe hown => exact .inr ⟨c, hcv, hd, rfl, hsafe, hown, by simp⟩
  | _ => exact .inl rfl

/-- What a move does to the version of a lock: nothing, or its holder, which has
committed, stores its commit version. -/
theorem ver_cases (ℓ : L) :
    s'.ver ℓ = s.ver ℓ ∨ ∃ c, (s.tx t).cv = some c ∧ (s'.tx t).done = true ∧
      s.owner ℓ = some t ∧ s'.ver ℓ = c := by
  cases hs with
  | release ℓ' c hcv hd hown =>
      by_cases hℓ : ℓ = ℓ'
      · subst hℓ
        exact .inr ⟨c, hcv, hd, hown, by simp⟩
      · exact .inl (by simp [hℓ])
  | _ => exact .inl rfl

end

section

variable (h : Inv lock m₀ s) (hs : Step lock m₀ s t s')
include h hs

/-- A move is one of the certifying protocol. -/
theorem certify : Certify.Step lock m₀ s.certify t s'.certify := by
  have hkeep : ∀ b, Certify.Step lock m₀ s.certify t (s.certify.put t b (s.tx t)) →
      Certify.Step lock m₀ s.certify t ⟨b, s.tx⟩ := by
    intro b hb
    rw [Certify.State.put] at hb
    exact (Function.update_eq_self t s.tx) ▸ hb
  cases hs with
  | write a v hcv => exact .write a v hcv
  | readOwn a v hcv hw => exact .readOwn a v hcv hw
  | read a hcv hown hw => exact .read a _ _ hcv hw ⟨le_rfl, fun _ _ => rfl⟩
  | acquire ℓ hcv hfree => exact hkeep _ (.acquire ℓ hcv hfree)
  | tick hcv => exact .tick hcv
  | skip => exact hkeep _ (.skip _ (.inl rfl))
  | overflow hd => exact .skip _ (.inr ⟨hd, rfl⟩)
  | commit c hcv hd hsafe hown =>
      refine .commit c hcv hd (fun r hr => ?_) hown
      have := h.entryLt t c hcv r hr
      exact h.kept_of_safe hd hr (by omega) (hsafe r hr)
  | release ℓ c hcv hd hown =>
      exact hkeep _ (.release ℓ c c hcv hd hown (h.ownLt t c ℓ hcv hown))
  | unlock ℓ hd hown =>
      have hunlock := hkeep _ (.unlock ℓ (s.certify.ver ℓ) hd hown le_rfl)
      rwa [Certify.Book.unlock, Function.update_eq_self] at hunlock
  | abort hd => exact .abort hd
  | finish hd hown => exact .finish hd hown
  | commitReadOnly e hcv he hro hsafe =>
      exact .commitReadOnly e hcv he hro fun r hr =>
        h.kept_of_safe (h.not_done hcv) hr (hsafe r hr).1 (hsafe r hr).2

/-- Lock versions only grow. -/
theorem ver_le (ℓ : L) : s.ver ℓ ≤ s'.ver ℓ := (hs.certify h).ver_le ℓ

/-- The committed memory changes at a word only when its holder commits, and
not below the version it commits with. -/
theorem mem_eq (n : ℕ) (a : A)
    (hq : ∀ c, (s.tx t).cv = some c → (s.tx t).done = false → c ≤ n →
      s.owner (lock a) ≠ some t) :
    s'.mem m₀ n a = s.mem m₀ n a :=
  (hs.certify h).mem_eq h.proto n a hq

/-- The current committed value of a word changes only when its holder commits. -/
theorem mem_clock_eq (a : A)
    (ho : (s.tx t).done = false → s.owner (lock a) ≠ some t ∨ (s'.tx t).done = false) :
    s'.mem m₀ s'.clock a = s.mem m₀ s.clock a :=
  (hs.certify h).mem_clock_eq h.proto a ho

end

end Step

theorem Quiet.step {ℓ : L} {e : ℕ} (hq : Quiet s u ℓ e) (hs : Step lock m₀ s t s')
    (he : e ≤ s.clock) : Quiet s' u ℓ e := by
  intro v c hv hc hce ho
  obtain ⟨hc', ho'⟩ := hs.owner_back hc (by omega) ho
  exact hq v c hv hc' hce ho'

/-- A recorded read that is valid up to `e` stays so whatever the others do, and
whatever its own transaction does short of committing. -/
theorem Safe.step {r : Entry A V} {e : ℕ} (hr : Safe lock s u r e)
    (hs : Step lock m₀ s t s') (hlive : u = t → (s'.tx u).done = false)
    (hv : r.ver ≤ s.clock) (he : e ≤ s.clock) : Safe lock s' u r e where
  quiet := hr.quiet.step hs (by omega)
  unwritten := by
    intro c w hlo hhi hw
    rcases hs.log_cases with hl | ⟨c', hcv, -, hl, -, hown, hd⟩
    · exact hr.unwritten c w hlo hhi (hl ▸ hw)
    · have hne : t ≠ u := by
        rintro rfl
        simp [hlive rfl] at hd
      rw [hl, enter_apply] at hw
      split_ifs at hw with hc
      · subst hc
        obtain rfl := Option.some.inj hw
        cases hlw : lastWrite (s.tx t).trace r.addr with
        | none => rfl
        | some v => exact absurd (hown _ v hlw) (hr.quiet t c hne hcv (by omega))
      · exact hr.unwritten c w hlo hhi hw
  version := by
    rcases hs.ver_cases (lock r.addr) with hv' | ⟨c, hcv, hd, hown, hv'⟩
    · rw [hv']
      exact hr.version
    · have hne : t ≠ u := by
        rintro rfl
        simp [hlive rfl] at hd
      have := mt (hr.quiet t c hne hcv) (not_not.2 hown)
      omega

namespace Step

section

variable (h : Inv lock m₀ s) (hs : Step lock m₀ s t s')
include h hs

theorem entryLt (u : T) (c : ℕ) : (s'.tx u).cv = some c → ∀ r ∈ (s'.tx u).reads, r.ver < c := by
  have := h.verLe
  have := h.entry
  have := h.entryLt
  have := h.not_done (t := t)
  cases hs <;> grind

theorem entry (u : T) (hd : (s'.tx u).done = false) :
    ∀ r ∈ (s'.tx u).reads,
      r.ver ≤ s'.ver (lock r.addr) ∧ s'.mem m₀ r.ver r.addr = r.val ∧
        Safe lock s' u r r.ver := by
  have hold : (s.tx u).done = false → ∀ r ∈ (s.tx u).reads,
      r.ver ≤ s'.ver (lock r.addr) ∧ s'.mem m₀ r.ver r.addr = r.val ∧
        Safe lock s' u r r.ver := by
    intro hd₀ r hr
    obtain ⟨hver, hval, hsafe⟩ := h.entry u hd₀ r hr
    have hclock := hver.trans (h.verLe (lock r.addr))
    refine ⟨hver.trans (hs.ver_le h _), ?_, hsafe.step hs (fun _ => hd) hclock hclock⟩
    rw [← hval]
    refine hs.mem_eq h _ _ fun c hcv _ hle => ?_
    by_cases hu : t = u
    · subst hu
      have := h.entryLt t c hcv r hr
      omega
    · exact hsafe.quiet t c hu hcv (by omega)
  intro r hr
  cases hs with
  | read a hcv hown hw =>
      by_cases hu : u = t
      · subst hu
        simp only [State.setTx_tx_self, List.mem_cons] at hr hd
        rcases hr with rfl | hr
        · refine ⟨le_rfl, ?_, ⟨?_, fun c w hlo hhi => by omega, .inl le_rfl⟩⟩
          · refine (h.mem_ver fun v hv => ?_).symm
            obtain rfl := hown v hv
            exact hd
          · intro v c hv _ _ ho
            exact hv (hown v ho)
        · exact hold hd r hr
      · simp only [State.setTx_tx_of_ne _ _ _ hu] at hr hd
        exact hold hd r hr
  | _ => exact hold (by grind) r (by grind)

end

end Step

/-- Every move keeps the invariant. -/
theorem Inv.step (h : Inv lock m₀ s) (hs : Step lock m₀ s t s') : Inv lock m₀ s' where
  proto := h.proto.step (hs.certify h)
  entry := hs.entry h
  entryLt := hs.entryLt h

/-- What was seen of a word stays so through the moves of all transactions. -/
theorem Seen.step {a : A} {n : ℕ} {v : V} (h : Inv lock m₀ s)
    (hseen : Seen lock m₀ s a n v) (hs : Step lock m₀ s t s') : Seen lock m₀ s' a n v :=
  have hstep := Certify.Seen.step h.proto ⟨hseen.le, hseen.value⟩ (hs.certify h)
  ⟨hstep.le, hstep.value⟩

end VersionLock
