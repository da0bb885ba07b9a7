import Mathlib.Data.Fintype.Basic
import ClangTM.Rust.Nvhtm.Steps

/-!
# What `nvhtm` and `spht` guarantee

As long as the clock does not wrap, the committed transactions with writes are a serial run in
the order in which they held the odd clock, no thread waits for a lock while it commits, and a
transaction that runs alone does not abort: its versions are at most half the clock.
-/

namespace Rust.Nvhtm

open Serial Transition CommitLock

section Run

variable {T : Type} [DecidableEq T] {d : Variant} {m₀ : Addr → Word} {s : Threads (Shared T) Tx T}
  {t : T}

omit [DecidableEq T] in
theorem inv_init (m₀ : Addr → Word) : (system T m₀).Inv (init T m₀) where
  shape :=
    { runs := rfl
      covered := fun w hw => by cases hw
      odd := ⟨fun h => absurd h (by decide : (0 : Word).toNat % 2 ≠ 1), fun h => absurd rfl h⟩
      idle := fun _ => ⟨⟨rfl, rfl⟩, fun ℓ =>
        ⟨fun h => absurd h (by decide : isLocked 0 ≠ true), fun h => by cases h⟩⟩
      ver_le := fun ℓ => (by decide : 2 * (version 0).toNat ≤ (0 : Word).toNat +
          (0 : Word).toNat % 2)
      room := (by decide : (0 : Word).toNat + 1 < 2 ^ 64)
      ro := fun r hr => by cases hr }
  holder t := by simp [system, init, core, Pc.holding]
  knows t := .blank rfl rfl rfl rfl le_rfl rfl trivial

theorem inv_run (hr : Run (step d) Bounded (init T m₀) s) : (system T m₀).Inv s := by
  refine hr.induction_on (inv_init m₀) fun s₁ l s₂ _ h hs hb => ?_
  obtain ⟨σ, x, hnext, rfl⟩ := Threads.step_eq_some hs
  exact next_inv h hnext hb

/-- A transaction without writes that ends with an even clock and the versions as it noted them
has read from one memory between its begin and its end. -/
theorem coexisted_of_settled (hr : Run (step d) Bounded (init T m₀) s) {r : ReadOnly Addr Word}
    (hmem : r ∈ s.shared.ro) (hsettled : r.settled = true) : Coexisted m₀ s.shared.log r :=
  (inv_run hr).shape.ro r hmem hsettled

omit [DecidableEq T] in
theorem holding_iff_odd (h : (system T m₀).Inv s) :
    s.shared.gClock.toNat % 2 = 1 ↔ ∃ t, (s.tx t).pc.holding = true := by
  rw [h.shape.odd, Option.ne_none_iff_exists']
  exact exists_congr fun t => (h.holder t).symm

omit [DecidableEq T] in
theorem isLocked_next (h : (system T m₀).Inv s) {ℓ : LockIdx} {rest : List LockIdx}
    (hpc : (s.tx t).pc = .lock (ℓ :: rest)) : isLocked (s.shared.locks ℓ) = false := by
  have hlocked : Locked s.shared ((s.tx t).idxs.filter fun i => i ∉ ℓ :: rest) :=
    Knows.lockedAt (h.knows t) hpc rfl
  rw [Bool.eq_false_iff, ne_eq, hlocked ℓ]
  simp

omit [DecidableEq T] in
/-- A lock that is taken has been taken by the thread that holds the odd clock. -/
theorem exists_holder_of_isLocked (h : (system T m₀).Inv s) {ℓ : LockIdx}
    (hℓ : isLocked (s.shared.locks ℓ) = true) :
    ∃ t, (s.tx t).pc.holding = true ∧ ℓ ∈ (s.tx t).held := by
  cases hholder : s.shared.holder with
  | none => cases ((h.shape.idle hholder).2 ℓ).1 hℓ
  | some t =>
      have hhold : (s.tx t).pc.holding = true := (h.holder t).2 hholder
      exact ⟨t, hhold, ((h.knows t).locked hhold ℓ).1 hℓ⟩

end Run

section Solo

variable {T : Type} {d : Variant} {m₀ : Addr → Word}

def Current (σ : Shared T) (rs : List (Addr × Word)) : Prop :=
  ∀ r ∈ rs, version (σ.locks (lockIndex r.1)) = r.2

/-- No version is above the clock at the begin of the transaction. -/
def Below (σ : Shared T) (x : Tx) : Prop := ∀ ℓ, (version (σ.locks ℓ)).toNat ≤ x.snapshot.toNat

/-- What has not changed since the begin of a transaction that runs alone. -/
def Unchanged (σ : Shared T) (x : Tx) : Prop :=
  match x.pc with
  | .body | .readSpin _ | .readVersion _ => Current σ x.readSet ∧ Below σ x
  | .readValue a ver | .readAgain a ver _ =>
      Current σ x.readSet ∧ Below σ x ∧ version (σ.locks (lockIndex a)) = ver
  | .acquire | .acquireCas _ | .lock _ | .lockCas .. => Current σ x.readSet
  | .validate rest => Current σ rest
  | .unlock _ result | .unlockStore _ _ result | .release result => result = true
  | _ => True

structure Solo (σ : Shared T) (x : Tx) : Prop where
  sound : x.aborted = false
  result : x.committed ≠ some false
  unchanged : Unchanged σ x

variable {σ : Shared T} {x : Tx}

theorem Solo.at (h : Solo σ x) {pc : Pc} (hpc : x.pc = pc) : Unchanged σ { x with pc := pc } := by
  subst hpc
  exact h.unchanged

theorem Solo.finish {result : Option Bool} (h : result ≠ some false) : Solo σ (Tx.finish result) :=
  ⟨rfl, h, trivial⟩

theorem Solo.validateFrom (h : Solo σ x) {rest : List (Addr × Word)} (hrest : Current σ rest) :
    Solo (validateFrom σ x rest).1 (validateFrom σ x rest).2 := by
  unfold Nvhtm.validateFrom
  split
  · exact ⟨h.sound, h.result, trivial⟩
  · exact ⟨h.sound, h.result, hrest⟩

theorem Current.setLock {rs : List (Addr × Word)} (h : Current σ rs) (ℓ : LockIdx) :
    Current (setLock σ ℓ) rs := fun r hr => by
  rw [version_setLock]
  exact h r hr

theorem Solo.noteRead (h : Solo σ x) {a : Addr} {ver val : Word} (hcur : Current σ x.readSet)
    (hbelow : Below σ x) (hver : version (σ.locks (lockIndex a)) = ver) :
    Solo σ (x.noteRead a ver val) := by
  have hle : ¬x.snapshot.toNat < ver.toNat := by
    rw [← hver]
    exact Nat.not_lt.2 (hbelow _)
  rw [Tx.noteRead, if_neg hle]
  refine ⟨h.sound, h.result, fun r hr => ?_, hbelow⟩
  rcases List.mem_append.1 hr with hr | hr
  · exact hcur r hr
  · rw [List.mem_singleton.1 hr]
    exact hver

theorem next_solo {t : T} {c : Call} {q : Shared T × Tx} (hshape : Shape m₀ σ) (h : Solo σ x)
    (hnext : next d t σ x c = some q) : Solo q.1 q.2 := by
  unfold next at hnext
  split at hnext <;> cases hnext
  · exact ⟨rfl, by simp, trivial⟩
  · unfold begin
    split
    · exact h
    · refine ⟨rfl, by simp, ?_⟩
      refine ⟨fun r hr => (by cases hr), fun ℓ => ?_⟩
      have hver := hshape.ver_le ℓ
      show (version (σ.locks ℓ)).toNat ≤ σ.gClock.toNat
      omega
  · next a hpc =>
      have hhere := h.at hpc
      rw [Tx.readWord, if_neg (by simp [h.sound])]
      split
      · exact ⟨h.sound, h.result, by unfold Unchanged; rw [hpc]; exact hhere⟩
      · exact ⟨h.sound, h.result, hhere⟩
  · next a v hpc =>
      have hhere := h.at hpc
      unfold Tx.writeWord
      split
      · exact h
      · exact ⟨h.sound, h.result, by unfold Unchanged; rw [hpc]; exact hhere⟩
  · exact .finish (by simp)
  · next hpc =>
      rw [commit, if_neg (by simp [h.sound])]
      split
      · exact .finish (by simp)
      · exact ⟨h.sound, h.result, (h.at hpc).1⟩
  · next a hpc =>
      have hhere := h.at hpc
      split
      · exact h
      · exact ⟨h.sound, h.result, hhere⟩
  · next a hpc =>
      have hhere := h.at hpc
      exact ⟨h.sound, h.result, hhere.1, hhere.2, rfl⟩
  · next a ver hpc =>
      have hhere := h.at hpc
      exact ⟨h.sound, h.result, hhere⟩
  · next a ver val hpc =>
      obtain ⟨hcur, hbelow, hver⟩ := h.at hpc
      rw [if_pos hver]
      exact h.noteRead hcur hbelow hver
  · next hpc =>
      have hhere := h.at hpc
      split
      · exact ⟨h.sound, h.result, hhere⟩
      · exact h
  · next cur hpc =>
      have hhere := h.at hpc
      unfold acquireCas
      split
      · exact ⟨h.sound, h.result, hhere⟩
      · exact ⟨h.sound, h.result, hhere⟩
  · next hpc =>
      have hhere := h.at hpc
      exact ⟨h.sound, h.result, hhere⟩
  · next ℓ rest hpc =>
      have hhere := h.at hpc
      split
      · exact h
      · exact ⟨h.sound, h.result, hhere⟩
  · next cur ℓ rest hpc =>
      have hhere : Current σ x.readSet := h.at hpc
      unfold lockCas
      split
      · split
        · refine Solo.validateFrom ⟨h.sound, h.result, ?_⟩ (hhere.setLock ℓ)
          unfold Unchanged
          rw [hpc]
          exact hhere.setLock ℓ
        · exact ⟨h.sound, h.result, hhere.setLock ℓ⟩
      · exact ⟨h.sound, h.result, hhere⟩
  · next rest hpc =>
      have hhere := h.at hpc
      exact ⟨h.sound, h.result, hhere⟩
  · next r rest hpc =>
      have hhere : Current σ (r :: rest) := h.at hpc
      rw [validate, if_pos (hhere r List.mem_cons_self)]
      exact h.validateFrom fun r' hr' => hhere r' (List.mem_cons_of_mem r hr')
  · next w rest hpc =>
      cases rest with
      | nil => exact ⟨h.sound, h.result, rfl⟩
      | cons w' rest => exact ⟨h.sound, h.result, trivial⟩
  · next ℓ rest result hpc =>
      have hhere := h.at hpc
      exact ⟨h.sound, h.result, hhere⟩
  · next cur ℓ rest result hpc =>
      have hhere : result = true := h.at hpc
      cases rest with
      | nil => exact ⟨h.sound, h.result, hhere⟩
      | cons ℓ' rest => exact ⟨h.sound, h.result, hhere⟩
  · next result hpc =>
      have hhere : result = true := h.at hpc
      exact .finish (by simp [hhere])

theorem eq_of_begin {t : T} {q : Shared T × Tx} (hnext : next d t σ x .begin = some q) :
    q.2 = { pc := .beginClock } := by
  cases hpc : x.pc with
  | out =>
      simp only [next, hpc] at hnext
      cases hnext
      rfl
  | _ => simp only [next, hpc, reduceCtorEq] at hnext

variable [DecidableEq T]

/-- Only the thread moves, and the clock does not wrap. -/
def Alone (t : T) (s : Threads (Shared T) Tx T) (l : T × Call) (s' : Threads (Shared T) Tx T) :
    Prop :=
  Bounded s l s' ∧ l.1 = t

theorem solo_run {s s' : Threads (Shared T) Tx T} {t : T} (h : (system T m₀).Inv s)
    (hsolo : Solo s.shared (s.tx t)) (hr : Run (step d) (Alone t) s s') :
    (system T m₀).Inv s' ∧ Solo s'.shared (s'.tx t) := by
  refine hr.induction_on (P := fun s' => (system T m₀).Inv s' ∧ Solo s'.shared (s'.tx t))
    ⟨h, hsolo⟩ fun s₁ l s₂ _ ⟨h, hsolo⟩ hs hok => ?_
  obtain ⟨σ, x, hnext, rfl⟩ := Threads.step_eq_some hs
  obtain ⟨hb, rfl⟩ := hok
  refine ⟨next_inv h hnext hb, ?_⟩
  rw [Threads.put_tx_self]
  exact next_solo h.shape hsolo hnext

/-- The committed transactions that write are a serial run in the order in which they held the
odd clock; twice a version is at most the clock, rounded up; a transaction that runs alone from
its begin does not abort; and locks are only taken by the thread that holds the odd clock, which
finds them free. -/
theorem serial_in_odd_clock_order (m₀ : Addr → Word) {s : Threads (Shared T) Tx T}
    (hr : Run (step d) Bounded (init T m₀) s) :
    (∃ m, SerialRun m₀ s.shared.log m ∧ (s.shared.gClock.toNat % 2 = 0 → s.shared.mem = m)) ∧
    (∀ ℓ, 2 * (version (s.shared.locks ℓ)).toNat ≤
      s.shared.gClock.toNat + s.shared.gClock.toNat % 2) ∧
    (∀ t s₁ s₂, step d s (t, .begin) = some s₁ → Run (step d) (Alone t) s₁ s₂ →
      (s₂.tx t).aborted = false ∧ (s₂.tx t).committed ≠ some false) ∧
    (s.shared.gClock.toNat % 2 = 1 ↔ ∃ t, (s.tx t).pc.holding = true) ∧
    (∀ ℓ, isLocked (s.shared.locks ℓ) = true →
      ∃ t, (s.tx t).pc.holding = true ∧ ℓ ∈ (s.tx t).held) ∧
    ∀ t ℓ rest, (s.tx t).pc = .lock (ℓ :: rest) → isLocked (s.shared.locks ℓ) = false := by
  have h := inv_run hr
  refine ⟨⟨_, h.shape.runs, fun heven => ?_⟩, h.shape.ver_le, fun t s₁ s₂ hs hr' => ?_,
    holding_iff_odd h, fun ℓ hℓ => exists_holder_of_isLocked h hℓ, fun t ℓ rest hpc =>
      isLocked_next h hpc⟩
  · have hnone : s.shared.holder = none := by
      by_contra hne
      have hodd := h.shape.odd.2 hne
      omega
    rw [(h.shape.idle hnone).1.1]
    rfl
  · obtain ⟨σ, x, hnext, rfl⟩ := Threads.step_eq_some hs
    have hbegin : x = { pc := .beginClock } := eq_of_begin hnext
    have hsolo : Solo σ x := by
      rw [hbegin]
      exact ⟨rfl, by simp, trivial⟩
    have hb : Bounded s (t, .begin) s := by
      unfold Bounded
      split <;> trivial
    obtain ⟨-, hend⟩ := solo_run (next_inv h hnext hb)
      (by rw [Threads.put_tx_self]; exact hsolo) hr'
    exact ⟨hend.sound, hend.result⟩

end Solo

/-- Two transactions that count up a word, the second of them after an abort. -/
theorem serial_in_odd_clock_order_two : ∃ s : Threads (Shared (Fin 2)) Tx (Fin 2),
    Run (step .spht) Bounded (init (Fin 2) fun _ => 0) s ∧
      s.shared.log = [[.write 0x100000 1, .read 0x100000 0],
        [.write 0x100000 2, .read 0x100000 1]] ∧
      ∃ m, SerialRun (fun _ => 0) s.shared.log m := by
  obtain ⟨s, hr, hlog⟩ : ∃ s : Threads (Shared (Fin 2)) Tx (Fin 2),
      Run (step .spht) Bounded (init (Fin 2) fun _ => 0) s ∧
        s.shared.log = [[.write 0x100000 1, .read 0x100000 0],
          [.write 0x100000 2, .read 0x100000 1]] :=
    exists_run_of_exec
      (.flatten [
        Threads.calls 0 [.begin, .tau, .read 0x100000, .tau, .tau, .tau, .tau, .write 0x100000 1],
        Threads.calls 1 [.begin, .tau, .read 0x100000, .tau, .tau, .tau, .tau, .write 0x100000 1],
        Threads.calls 0 (.commit :: .replicate 9 .tau), Threads.calls 1
            (.commit :: .replicate 8 .tau),
        Threads.calls 1 [.begin, .tau, .read 0x100000, .tau, .tau, .tau, .tau, .write 0x100000 2],
        Threads.calls 1 (.commit :: .replicate 9 .tau)])
      (by decide +kernel)
  obtain ⟨⟨m, hserial, -⟩, -⟩ := serial_in_odd_clock_order _ hr
  exact ⟨s, hr, hlog, m, hserial⟩

section Wrap

variable {s : Threads (Shared (Fin 1)) Tx (Fin 1)}

/-- A transaction that sets a word, from any state with an even clock in which its lock is
free. -/
theorem exec_setsFirst (hpc : (s.tx 0).pc = .out) (heven : s.shared.gClock &&& 1 = 0)
    (hfree : isLocked (s.shared.locks (lockIndex 0x100000)) = false) :
    ∃ s', exec (step .nvhtm) anyStep s
        (Threads.calls 0 [.begin, .tau, .write 0x100000 1, .commit, .tau, .tau, .tau, .tau, .tau,
          .tau, .tau, .tau]) = some s' ∧
      (s'.tx 0).pc = .out ∧ s'.shared.gClock = (s.shared.gClock ||| 1) + 1 ∧
      ∃ w, s'.shared.locks = Function.update s.shared.locks (lockIndex 0x100000) (unlocked w) := by
  let ℓ := lockIndex 0x100000
  let x : Tx :=
    { pc := .acquire, snapshot := s.shared.gClock, writeSet := [(0x100000, 1)]
      writeBacks := [(0x100000, 1)], ops := [.write 0x100000 1], begun := s.shared.log.length }
  let σ : Shared (Fin 1) := { s.shared with gClock := s.shared.gClock ||| 1, holder := some 0 }
  have hbegin : next .nvhtm 0 s.shared (s.tx 0) .begin =
      some (s.shared, { pc := .beginClock }) := by
    simp only [next, hpc]
  have hload : next .nvhtm 0 s.shared x .tau =
      some (s.shared, { x with pc := .acquireCas s.shared.gClock }) :=
    congrArg (fun y => some (s.shared, y)) (if_pos heven)
  have hacquire : next .nvhtm 0 s.shared { x with pc := .acquireCas s.shared.gClock } .tau =
      some (σ, { x with pc := .lock [ℓ] }) :=
    congrArg some (if_pos rfl)
  have hlock : next .nvhtm 0 σ { x with pc := .lock [ℓ] } .tau =
      some (σ, { x with pc := .lockCas (s.shared.locks ℓ) [ℓ] }) :=
    congrArg (fun y => some (σ, y)) (if_neg (Bool.eq_false_iff.1 hfree))
  have hcas : next .nvhtm 0 σ { x with pc := .lockCas (s.shared.locks ℓ) [ℓ] } .tau =
      some ({ setLock σ ℓ with
          pending := [(0x100000, 1)], dirty := [ℓ], log := σ.log ++ [[.write 0x100000 1]] },
        { x with pc := .writeBack [(0x100000, 1)] }) :=
    congrArg some (if_pos rfl)
  rw [step, Threads.calls]
  simp only [List.map_cons, List.map_nil]
  rw [Threads.exec_cons_of_next hbegin,
    Threads.exec_put (by rfl),
    Threads.exec_put (by rfl),
    Threads.exec_put (σ := s.shared) (x := x) (by rfl),
    Threads.exec_put (by exact hload),
    Threads.exec_put (by exact hacquire),
    Threads.exec_put (by exact hlock),
    Threads.exec_put (by exact hcas),
    Threads.exec_put (by rfl), Threads.exec_put (by rfl), Threads.exec_put (by rfl),
    Threads.exec_put (by rfl), exec_nil]
  refine ⟨_, rfl, ?_, rfl, _, Function.update_idem _ _ _⟩
  rw [Threads.put_tx_self]
  rfl

/-- Any number of these transactions: the clock grows by two with each of them. -/
theorem run_setsFirst (hpc : (s.tx 0).pc = .out) (heven : s.shared.gClock.toNat % 2 = 0)
    (hfree : isLocked (s.shared.locks (lockIndex 0x100000)) = false) (n : ℕ) :
    ∃ s', Run (step .nvhtm) anyStep s s' ∧ (s'.tx 0).pc = .out ∧
      s'.shared.gClock.toNat = (s.shared.gClock.toNat + 2 * n) % 2 ^ 64 ∧
      isLocked (s'.shared.locks (lockIndex 0x100000)) = false ∧
      ∀ ℓ, ℓ ≠ lockIndex 0x100000 → s'.shared.locks ℓ = s.shared.locks ℓ := by
  induction n with
  | zero => exact ⟨s, .refl, hpc, by omega, hfree, fun _ _ => rfl⟩
  | succ n ih =>
      obtain ⟨s₁, hr, hpc₁, hclock₁, hfree₁, hlocks₁⟩ := ih
      have heven₁ : s₁.shared.gClock.toNat % 2 = 0 := by omega
      obtain ⟨s', hs, hpc', hclock, w, hlocks⟩ :=
        exec_setsFirst hpc₁ ((and_one_eq_zero_iff _).2 heven₁) hfree₁
      refine ⟨s', hr.trans (run_of_exec hs), hpc', ?_, ?_, fun ℓ hℓ => ?_⟩
      · have hone : (1 : Word).toNat = 1 := rfl
        rw [hclock, BitVec.toNat_add, toNat_or_one, hone]
        omega
      · rw [hlocks, Function.update_self, isLocked_unlocked]
      · rw [hlocks, Function.update_of_ne hℓ, hlocks₁ ℓ hℓ]

/-- The clock wraps: after `2 ^ 63` transactions it is 0 again, and a lock that one of them has
taken has version 1. -/
theorem version_above_clock_after_wrap : ∃ (s : Threads (Shared (Fin 1)) Tx (Fin 1)) (ℓ : LockIdx),
    Run (step .nvhtm) anyStep (init (Fin 1) fun _ => 0) s ∧
      s.shared.gClock.toNat + s.shared.gClock.toNat % 2 < 2 *
          (version (s.shared.locks ℓ)).toNat := by
  obtain ⟨s₁, h₁, hpc₁, hclock₁, hfree₁, hver₁⟩ :
      ∃ s₁ : Threads (Shared (Fin 1)) Tx (Fin 1),
        Run (step .nvhtm) anyStep (init (Fin 1) fun _ => 0) s₁ ∧ (s₁.tx 0).pc = .out ∧
        s₁.shared.gClock.toNat = 2 ∧
        isLocked (s₁.shared.locks (lockIndex 0x100000)) = false ∧
        version (s₁.shared.locks (lockIndex 0x100008)) = 1 :=
    exists_run_of_exec
      (Threads.calls 0 [.begin, .tau, .write 0x100008 1, .commit, .tau, .tau, .tau, .tau, .tau,
        .tau, .tau, .tau])
      (by decide +kernel)
  obtain ⟨s₂, h₂, -, hclock₂, -, hlocks₂⟩ := run_setsFirst hpc₁ (by omega) hfree₁ (2 ^ 63 - 1)
  refine ⟨s₂, lockIndex 0x100008, h₁.trans h₂, ?_⟩
  have hone : (1 : Word).toNat = 1 := rfl
  rw [hlocks₂ _ (by decide), hver₁, hclock₂, hclock₁, hone]
  omega

end Wrap

end Rust.Nvhtm
