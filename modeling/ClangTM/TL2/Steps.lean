import ClangTM.TL2.Invariant

/-!
# The steps of TL2 keep the invariant

The steps of a commit are moves of the protocol: the compare-and-swap on a guard acquires a
lock, the `fetch_add` takes the commit version, the last comparison of the validation commits,
and the stores to the guards release or unlock. What is left to show is that each of them keeps
the account of the commit.
-/

namespace TL2

open Serial Transition Certify

section Own

variable {ver : GuardIdx → ℕ} {x y : Tx}

theorem Own.keep (h : Own ver x) {pc : Pc} (hpc : x.pc = pc) (hopen : undecided (phase pc) = true)
    (hheld : held y.pc = held pc)
    (hsame : (y.taken, y.given, y.stores, y.committed, y.commitVersion, y.hist.cv) =
      (x.taken, x.given, x.stores, x.committed, x.commitVersion, x.hist.cv)) : Own ver y := by
  obtain ⟨htaken, hgiven, hstores, hcommitted, hversion, hcv⟩ :
      y.taken = x.taken ∧ y.given = x.given ∧ y.stores = x.stores ∧
        y.committed = x.committed ∧ y.commitVersion = x.commitVersion ∧
        y.hist.cv = x.hist.cv := by
    simpa using hsame
  subst hpc
  refine ⟨fun c hc => ?_, fun _ => ?_, fun _ => ?_, fun hf => ?_⟩
  · rw [hversion]
    exact h.version c (hcv ▸ hc)
  · rw [hheld, Locks, htaken, hgiven, hstores]
    exact h.account.locked hopen
  · rw [hcommitted]
    refine h.account.inside fun hidle => ?_
    simp [hidle, undecided] at hopen
  · rw [htaken, hgiven, hstores]
    exact h.account.failed (hcommitted ▸ hf)

theorem Own.idle (hp : phase y.pc = .idle) (hhist : y.hist = {})
    (hfailed : y.committed = some false → y.given = y.taken ∧ y.stores = 0) : Own ver y :=
  ⟨by simp [hhist], by simp [hp, undecided], fun hne => absurd hp hne, hfailed⟩

theorem Own.running (hversion : ∀ c, y.hist.cv = some c → y.commitVersion.toNat = c ∧ c < 2 ^ 63)
    (hc : y.committed = none)
    (hlocks : undecided (phase y.pc) = true → Locks ver y (held y.pc)) : Own ver y :=
  ⟨hversion, hlocks, fun _ => hc, by simp [hc]⟩

theorem Own.fail (h : Own ver x) {pc : Pc} (hpc : x.pc = pc)
    (hopen : undecided (phase pc) = true) : Own ver (x.fail (held pc)) := by
  subst hpc
  unfold Tx.fail
  split
  · next hnil =>
      obtain ⟨l, htaken, hl, -, hstores⟩ := h.account.locked hopen
      obtain rfl : l = [] := List.map_eq_nil_iff.1 (hl.trans hnil)
      exact .idle rfl rfl fun _ => ⟨by simp [Tx.finish, htaken], hstores⟩
  · exact h.keep rfl hopen rfl rfl

/-- A lock has been taken. -/
theorem Own.acquire (h : Own ver x) {pc : Pc} (hpc : x.pc = pc) (hactive : phase pc = .active)
    {ℓ : GuardIdx} {v : Word} (hver : v.toNat = ver ℓ) (rest : List (CellAddr × Word)) :
    Own ver { x with
      pc := Tx.acquireNext rest (held pc ++ [ℓ]), taken := x.taken ++ [(ℓ, v)] } := by
  subst hpc
  obtain ⟨l, htaken, hl, hlver, hstores⟩ := h.account.locked (by rw [hactive]; rfl)
  refine .running h.version (h.account.inside (by simp [hactive])) fun _ =>
    ⟨l ++ [(ℓ, v)], by simp [htaken], by simp [hl], fun p hp => ?_, hstores⟩
  rcases List.mem_append.1 hp with hp | hp
  · exact hlver p hp
  · rw [List.mem_singleton.1 hp]
    exact hver.symm

/-- The first lock has been given back. -/
theorem Own.giveBack (h : Own ver x) {ℓ : GuardIdx} {rest : List GuardIdx} {v : Word}
    (hpc : x.pc = .giveBack (ℓ :: rest)) (hver : v.toNat = ver ℓ) :
    Own ver (Tx.fail { x with given := x.given ++ [(ℓ, v)] } rest) := by
  obtain ⟨l, htaken, hl, hlver, hstores⟩ := h.account.locked (by rw [hpc]; rfl)
  rw [hpc] at hl
  obtain ⟨p, l, rfl, hp, hltail⟩ := List.map_eq_cons_iff.1 hl
  have hpv : p = (ℓ, v) := by
    have hpver := hlver p List.mem_cons_self
    rw [hp] at hpver
    exact Prod.ext hp (BitVec.eq_of_toNat_eq (hpver.symm.trans hver.symm))
  have hown : Own ver { x with pc := .giveBack rest, given := x.given ++ [(ℓ, v)] } :=
    .running h.version (h.account.inside (by simp [hpc, phase])) fun _ =>
      ⟨l, by simp [htaken, hpv], hltail, fun q hq => hlver q (List.mem_cons_of_mem _ hq), hstores⟩
  exact hown.fail rfl rfl

end Own

variable {T : Type}

theorem core_fail (x : Tx) (hl : List GuardIdx) :
    (backend T).core (x.fail hl) = ((backend T).core x).failFrom hl := by
  unfold Tx.fail Tx.failFrom
  split <;> rfl

theorem core_validateFrom (σ : Shared T) (x : Tx) (rest : List ReadSetEntry) (hl : List GuardIdx) :
    ((backend T).table (validateFrom σ x rest hl).1,
      (backend T).core (validateFrom σ x rest hl).2) =
      validateFrom ((backend T).table σ) ((backend T).core x) rest hl := by
  cases rest <;> rfl

theorem Own.validateFrom {ver : GuardIdx → ℕ} {x : Tx} (h : Own ver x) {pc : Pc} (hpc : x.pc = pc)
    (hopen : undecided (phase pc) = true) (σ : Shared T) (rest : List ReadSetEntry) :
    Own ver (TL2.validateFrom σ x rest (held pc)).2 := by
  cases rest <;> exact h.keep hpc hopen rfl rfl

theorem Shape.validateFrom {σ : Shared T} (h : Shape σ) (x : Tx) (rest : List ReadSetEntry)
    (hl : List GuardIdx) : Shape (TL2.validateFrom σ x rest hl).1 := by
  cases rest <;> exact ⟨h.clock, h.bound, h.stamp⟩

theorem Shape.setGuard {σ : Shared T} (h : Shape σ) {ℓ : GuardIdx} {g : Word}
    {book : Book CellAddr Word GuardIdx T} (hclock : book.clock = σ.book.clock)
    (hstamp : book.ver ℓ = book.stamp ℓ)
    (hother : ∀ k, k ≠ ℓ → book.ver k = σ.book.ver k ∧ book.stamp k = σ.book.stamp k) :
    Shape (σ.setGuard ℓ g book) := by
  refine ⟨h.clock.trans hclock.symm, h.bound, fun k => ?_⟩
  by_cases hk : k = ℓ
  · exact hk ▸ hstamp
  · exact (hother k hk).1.trans ((h.stamp k).trans (hother k hk).2.symm)

variable [DecidableEq T] {m₀ : CellAddr → Word} {s : Threads (Shared T) Tx T} {t : T}
  {hl : List GuardIdx}

section Commit

variable (h : (backend T).Inv m₀ s)
include h

theorem acquire_good {pc : Pc} (hpc : (s.tx t).pc = pc) (hactive : phase pc = .active)
    (e : CellAddr × Word) (rest : List (CellAddr × Word))
    (hcov : Covered (s.tx t).writeSet (held pc) (e :: rest)) :
    (backend T).Good m₀ s t s.shared
      (if isLocked (s.shared.gGuards (getGuardIdx e.1)) then (s.tx t).fail (held pc)
        else { s.tx t with
          pc := .acquireCas (s.shared.gGuards (getGuardIdx e.1)) e rest (held pc) }) := by
  refine Backend.acquireLoad_good h hpc hactive hcov
    (by rw [apply_ite (backend T).core, core_fail]; rfl) ?_
  split
  · exact (h.tx t).2.2.fail hpc (by rw [hactive]; rfl)
  · exact (h.tx t).2.2.keep hpc (by rw [hactive]; rfl) rfl rfl

theorem acquireCas_good {guard : Word} {e : CellAddr × Word} {rest : List (CellAddr × Word)}
    (hpc : (s.tx t).pc = .acquireCas guard e rest hl) :
    (backend T).Good m₀ s t (acquireCas t s.shared (s.tx t) guard e rest hl).1
      (acquireCas t s.shared (s.tx t) guard e rest hl).2 := by
  unfold acquireCas
  by_cases hguard : s.shared.gGuards (getGuardIdx e.1) = guard
  · rw [if_pos hguard]
    exact Backend.acquired_good h hpc hguard rfl rfl
      (h.shape.2.setGuard rfl (h.shape.2.stamp _) fun _ _ => ⟨rfl, rfl⟩)
      ((h.tx t).2.2.acquire hpc rfl (hguard ▸ h.shape.1.ver _) rest)
  · rw [if_neg hguard]
    have hgood := acquire_good h hpc rfl e rest (Backend.here h hpc).1
    split at hgood
    · next hlocked =>
        rw [if_pos hlocked]
        exact hgood
    · next hlocked =>
        rw [if_neg hlocked]
        exact hgood

theorem giveBack_good {ℓ : GuardIdx} {rest : List GuardIdx}
    (hpc : (s.tx t).pc = .giveBack (ℓ :: rest)) :
    (backend T).Good m₀ s t (giveBack s.shared (s.tx t) ℓ rest).1
      (giveBack s.shared (s.tx t) ℓ rest).2 := by
  have hver : (guardVersion (s.shared.gGuards ℓ &&& ~~~lockMask)).toNat = s.shared.book.ver ℓ := by
    rw [guardVersion_unlock]
    exact h.shape.1.ver ℓ
  exact Backend.giveBack_good h hpc rfl rfl (core_fail _ _)
    (h.shape.2.setGuard rfl (by simpa [← hver] using h.shape.2.stamp ℓ) fun k hk => by simp [hk])
    ((h.tx t).2.2.giveBack hpc hver)

theorem tick_good (hpc : (s.tx t).pc = .tick hl) (hbound : (s.shared.gClock + 1).toNat < 2 ^ 63) :
    (backend T).Good m₀ s t (incrementClock s.shared (s.tx t) hl).1
      (incrementClock s.shared (s.tx t) hl).2 := by
  have hclock : (s.shared.gClock + 1).toNat = s.shared.book.clock + 1 := by
    have hlt := h.shape.2.bound
    rw [BitVec.toNat_add, ← h.shape.2.clock]
    exact Nat.mod_eq_of_lt (by simp; omega)
  have hshape : Shape { s.shared with gClock := s.shared.gClock + 1, book := s.shared.book.tick } :=
    ⟨hclock, hbound, h.shape.2.stamp⟩
  have hown : Own s.shared.book.ver { s.tx t with
      commitVersion := s.shared.gClock + 1, hist.cv := some (s.shared.book.clock + 1) } := by
    refine .running (fun c hc => ?_) ((h.tx t).2.2.account.inside (by simp [hpc, phase]))
      (h.tx t).2.2.account.locked
    obtain rfl := Option.some.inj hc
    exact ⟨hclock, hclock ▸ hbound⟩
  exact Backend.tick_good h hpc (core_validateFrom _ _ _ _) (hshape.validateFrom _ _ _)
    (hown.validateFrom hpc rfl _ _)

/-- A guard is released with the commit version. -/
theorem release_good {ℓ : GuardIdx} {rest : List GuardIdx}
    (hpc : (s.tx t).pc = .release (ℓ :: rest)) :
    (backend T).Good m₀ s t (release s.shared (s.tx t) ℓ rest).1
      (release s.shared (s.tx t) ℓ rest).2 := by
  have hphase : phase (s.tx t).pc = .writing [] := by rw [hpc]; rfl
  have hok := (h.tx t).1
  have hown := (h.tx t).2.2
  obtain ⟨c, hcv, -⟩ := h.proto.committed t (hok.hereAt hphase).1
  have hcvx : (s.tx t).hist.cv = some c := hcv
  obtain ⟨hversion, hc⟩ := hown.version c hcv
  have hguard : (guardVersion (withVersion (s.tx t).commitVersion)).toNat = c := by
    rw [guardVersion_withVersion (hversion ▸ hc), hversion]
  have hgrow : s.shared.book.ver ℓ <
      (guardVersion (withVersion (s.tx t).commitVersion)).toNat := by
    rw [hguard, h.shape.2.stamp]
    refine h.proto.ownLt t c ℓ hcv ((hok.held ℓ).2 ?_)
    show ℓ ∈ held (s.tx t).pc
    rw [hpc]
    exact List.mem_cons_self
  refine Backend.release_good h hpc (isLocked_withVersion _) hgrow rfl ?_
    (h.shape.2.setGuard rfl (by simp [hguard, hcvx]) fun k hk => by simp [hk]) ?_
  · show (backend T).core (if _ then _ else _) = _
    rw [apply_ite (backend T).core]
    rfl
  · show Own _ (if _ then _ else _)
    split
    · exact .idle rfl rfl (by simp [Tx.finish])
    · exact .running hown.version (hown.account.inside (by simp [hphase]))
        (by simp [phase, undecided])

end Commit

/-- Every step keeps the invariant, as long as the clock does not reach `2 ^ 63`. -/
theorem next_good (h : (backend T).Inv m₀ s) {c : TmCall CellAddr} {p : Shared T × Tx}
    (hnext : next t s.shared (s.tx t) c = some p) (hbound : p.1.gClock.toNat < 2 ^ 63) :
    (backend T).Good m₀ s t p.1 p.2 := by
  have hown := (h.tx t).2.2
  unfold next at hnext
  split at hnext <;> cases hnext
  · next hpc =>
      exact Backend.goto_good h hpc rfl rfl rfl (by simp [phase]) trivial
        (.idle rfl ((h.tx t).1.hereAt (congrArg phase hpc)).1 hown.account.failed)
  · next hpc =>
      exact Backend.begin_good h hpc rfl rfl
        (.running (by simp [Tx.begin]) rfl fun _ => ⟨[], rfl, rfl, by simp, rfl⟩)
  · next a hpc =>
      refine Backend.readImpl_good h hpc (a := a) ?_ ?_
      · show (backend T).core (Tx.readImpl _ a) = Tx.readImpl ((backend T).core _) a
        rw [Tx.readImpl, Tx.readImpl, show ((backend T).core _).find a = (s.tx t).find a from rfl]
        cases (s.tx t).find a <;> rfl
      · show Own _ (Tx.readImpl _ a)
        unfold Tx.readImpl
        split
        · exact hown.keep hpc rfl (congrArg held hpc) rfl
        · exact hown.keep hpc rfl rfl rfl
  · next a v hpc =>
      exact Backend.writeImpl_good h hpc rfl (hown.keep hpc rfl (congrArg held hpc) rfl)
  · next hpc =>
      have hcommitted := hown.account.inside (by simp [phase, hpc])
      exact Backend.end_good h hpc rfl (by simp [phase]) rfl
        (.idle rfl rfl (by simp [Tx.abortTx, hcommitted]))
  · next hpc =>
      show (backend T).Good m₀ s t s.shared (if _ then _ else _)
      split
      · exact Backend.end_good h hpc rfl (by simp [phase]) rfl
          (.idle rfl rfl (by simp [Tx.finish]))
      · exact Backend.commitStart_good h hpc rfl
          (hown.keep hpc rfl (held_acquireNext _ _) rfl)
  · next a hpc => exact Backend.noteGuard_good h hpc rfl (hown.keep hpc rfl rfl rfl)
  · next a version hpc => exact Backend.readValue_good h hpc rfl (hown.keep hpc rfl rfl rfl)
  · next e rest hl hpc => exact acquire_good h hpc rfl e rest (Backend.here h hpc)
  · next guard e rest hl hpc => exact acquireCas_good h hpc
  · next guard e rest hl hpc => exact acquire_good h hpc rfl e rest (Backend.here h hpc).1
  · next ℓ rest hpc => exact giveBack_good h hpc
  · next hl hpc =>
      have hclock : (incrementClock s.shared (s.tx t) hl).1.gClock = s.shared.gClock + 1 := by
        rw [incrementClock]
        cases (s.tx t).readSet <;> rfl
      exact tick_good h hpc (hclock ▸ hbound)
  · next r rest hl hpc =>
      by_cases hstale : r.stale hl (s.shared.gGuards (getGuardIdx r.dataAddr)) = true
      · rw [if_pos hstale]
        exact Backend.fail_good h hpc rfl (core_fail _ _) (hown.fail hpc rfl)
      · rw [if_neg hstale]
        exact Backend.validate_good h hpc (Bool.eq_false_of_not_eq_true hstale)
          (core_validateFrom _ _ _ _) (h.shape.2.validateFrom _ _ _) (hown.validateFrom hpc rfl _ _)
  · next w rest hl hpc =>
      refine Backend.writeBack_good h hpc rfl rfl
        ⟨h.shape.2.clock, h.shape.2.bound, h.shape.2.stamp⟩
        (.running hown.version (hown.account.inside (by simp [hpc, phase])) ?_)
      by_cases hnil : rest = [] <;> simp [hnil, phase, undecided]
  · next ℓ rest hpc => exact release_good h hpc

end TL2
