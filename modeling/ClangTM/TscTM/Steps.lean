import ClangTM.TscTM.Invariant

/-!
# The steps of TSC-TM keep the invariant

Two of the accesses need more than the code checks: a release of `abort_tx` must find the guard
unlocked, and the version of a guard must not wrap.
-/

namespace TscTM

open Serial Transition Certify TL2

theorem unlock_of_not_locked {g : Word} (h : isLocked g = false) : g &&& ~~~lockMask = g := by
  refine BitVec.eq_of_getLsbD_eq fun i hi => ?_
  rw [BitVec.getLsbD_and, getLsbD_not_lockMask]
  cases i with
  | zero =>
      rw [isLocked_eq] at h
      rw [h, Bool.false_and]
  | succ i => simp [hi]

theorem newVersion_gt {x : Tx} {ℓ : GuardIdx} (hbound : (x.acqVersion ℓ).toNat + 1 < 2 ^ 63)
    (hts : x.commitVersion.toNat < 2 ^ 62) :
    (x.acqVersion ℓ).toNat < (guardVersion (withVersion (x.newVersion ℓ))).toNat := by
  have hone : (1 : Word).toNat = 1 := rfl
  have hsucc : (x.acqVersion ℓ + 1).toNat = (x.acqVersion ℓ).toNat + 1 := by
    rw [BitVec.toNat_add, hone]
    exact Nat.mod_eq_of_lt (by omega)
  unfold Tx.newVersion
  split
  · next hlt =>
      have hlt : (x.acqVersion ℓ + 1).toNat < x.commitVersion.toNat := hlt
      rw [guardVersion_withVersion (by omega)]
      omega
  · rw [guardVersion_withVersion (by omega), hsucc]
    omega

section Own

variable {ver : GuardIdx → ℕ} {x y : Tx}

theorem Own.keep (h : Own ver x) {pc : Pc} (hpc : x.pc = pc)
    (hheld : held y.pc.core ⊆ held pc.core)
    (hsame : (y.commitVersion, y.acqVersion) = (x.commitVersion, x.acqVersion)) : Own ver y := by
  obtain ⟨hversion, hacq⟩ := Prod.mk.inj hsame
  refine ⟨hversion ▸ h.stamp, fun ℓ hℓ => ?_⟩
  rw [hacq]
  exact h.acq ℓ (hpc ▸ hheld hℓ)

theorem Own.fail (h : Own ver x) {pc : Pc} (hpc : x.pc = pc) {hl : List GuardIdx}
    (hheld : hl ⊆ held pc.core) : Own ver (x.fail hl) := by
  unfold Tx.fail
  split
  · exact h.keep hpc (List.nil_subset _) rfl
  · exact h.keep hpc hheld rfl

theorem Own.abortFrom (h : Own ver x) (rest : List CellAddr) : Own ver (x.abortFrom rest) := by
  unfold Tx.abortFrom
  split <;> exact h.keep rfl (List.nil_subset _) rfl

end Own

variable {T : Type}

theorem core_acquireNext (rest : List (CellAddr × Word)) (hl : List GuardIdx) :
    (Tx.acquireNext rest hl).core = TL2.Tx.acquireNext rest hl := by
  unfold Tx.acquireNext TL2.Tx.acquireNext
  cases rest.dropWhile fun e => getGuardIdx e.1 ∈ hl <;> rfl

theorem core_fail (x : Tx) (hl : List GuardIdx) :
    (backend T).core (x.fail hl) = ((backend T).core x).failFrom hl := by
  unfold Tx.fail TL2.Tx.failFrom
  split <;> rfl

theorem core_abortFrom (x : Tx) (rest : List CellAddr) :
    (backend T).core (x.abortFrom rest) = ((backend T).core x).leave := by
  unfold Tx.abortFrom
  split <;> rfl

theorem core_validateFrom (σ : Shared T) (x : Tx) (rest : List ReadSetEntry) (hl : List GuardIdx) :
    ((backend T).table (validateFrom σ x rest hl).1,
      (backend T).core (validateFrom σ x rest hl).2) =
      TL2.validateFrom ((backend T).table σ) ((backend T).core x) rest hl := by
  cases rest <;> rfl

theorem Own.validateFrom {ver : GuardIdx → ℕ} {x : Tx} (h : Own ver x) {pc : Pc} (hpc : x.pc = pc)
    (σ : Shared T) (rest : List ReadSetEntry) :
    Own ver (validateFrom σ x rest (held pc.core)).2 := by
  cases rest <;> exact h.keep hpc (List.Subset.refl _) rfl

variable [DecidableEq T] {m₀ : CellAddr → Word} {s : Threads (Shared T) Tx T} {t : T}
  {hl : List GuardIdx}

section Commit

variable (h : (backend T).Inv m₀ s)
include h

theorem acquireLoad_good {pc : Pc} (hpc : (s.tx t).pc = pc) (hactive : phase pc.core = .active)
    (e : CellAddr × Word) (rest : List (CellAddr × Word))
    (hcov : Covered (s.tx t).writeSet (held pc.core) (e :: rest)) :
    (backend T).Good m₀ s t (acquireLoad s.shared (s.tx t) e rest (held pc.core)).1
      (acquireLoad s.shared (s.tx t) e rest (held pc.core)).2 := by
  refine Backend.acquireLoad_good h (congrArg Pc.core hpc) hactive hcov
    (g := s.shared.gGuards (getGuardIdx e.1)) ?_ ?_
  · rw [acquireLoad, apply_ite (backend T).core, core_fail]
    rfl
  · show Own _ (if _ then _ else _)
    split
    · exact (h.tx t).2.2.fail hpc (List.Subset.refl _)
    · exact (h.tx t).2.2.keep hpc (List.Subset.refl _) rfl

theorem acquireCas_good {guard : Word} {e : CellAddr × Word} {rest : List (CellAddr × Word)}
    (hpc : (s.tx t).pc = .acquireCas guard e rest hl) :
    (backend T).Good m₀ s t (acquireCas t s.shared (s.tx t) guard e rest hl).1
      (acquireCas t s.shared (s.tx t) guard e rest hl).2 := by
  have hcore : ((backend T).now s t).pc = .acquireCas guard e rest hl := congrArg Pc.core hpc
  unfold acquireCas
  by_cases hguard : s.shared.gGuards (getGuardIdx e.1) = guard
  · rw [if_pos hguard]
    refine Backend.acquired_good h hcore hguard rfl ?_ trivial ⟨(h.tx t).2.2.stamp, fun ℓ hℓ => ?_⟩
    · simp only [backend, core_acquireNext]
    · rw [core_acquireNext, held_acquireNext] at hℓ
      show s.shared.book.ver ℓ = (Function.update (s.tx t).acqVersion _ _ ℓ).toNat
      by_cases hk : ℓ = getGuardIdx e.1
      · rw [hk, Function.update_self, ← hguard]
        exact (h.shape.1.ver _).symm
      · rw [Function.update_of_ne hk]
        refine (h.tx t).2.2.acq ℓ ?_
        rw [hpc]
        simpa [hk, Pc.core, held] using hℓ
  · rw [if_neg hguard]
    exact acquireLoad_good h hpc rfl e rest (Backend.here h hcore).1

theorem release_good {ℓ : GuardIdx} {rest : List GuardIdx}
    (hpc : (s.tx t).pc = .release (ℓ :: rest))
    (hbound : ((s.tx t).acqVersion ℓ).toNat + 1 < 2 ^ 63) :
    (backend T).Good m₀ s t (release s.shared (s.tx t) ℓ rest).1
      (release s.shared (s.tx t) ℓ rest).2 := by
  have hown := (h.tx t).2.2
  have hheld : ∀ k ∈ ℓ :: rest, s.shared.book.ver k = ((s.tx t).acqVersion k).toNat := fun k hk =>
    hown.acq k (by rw [hpc]; exact hk)
  have hnodup : (ℓ :: rest).Nodup := by
    have := (h.tx t).1.nodup
    rwa [show ((backend T).phased.loc (s.tx t)).held = ℓ :: rest from
      congrArg (fun pc => held (Pc.core pc)) hpc] at this
  refine Backend.release_good h (congrArg Pc.core hpc) (isLocked_withVersion _) ?_ rfl ?_ trivial ?_
  · show s.shared.book.ver ℓ < _
    rw [hheld ℓ List.mem_cons_self]
    exact newVersion_gt hbound hown.stamp
  · show (backend T).core (if _ then _ else _) = _
    rw [apply_ite (backend T).core]
    rfl
  · show Own _ (if _ then _ else _)
    split
    · exact ⟨hown.stamp, fun _ hk => absurd hk List.not_mem_nil⟩
    · refine ⟨hown.stamp, fun k hk => ?_⟩
      have hne : k ≠ ℓ := fun heq => (List.nodup_cons.1 hnodup).1 (heq ▸ hk)
      exact (Function.update_of_ne hne _ _).trans (hheld k (List.mem_cons_of_mem _ hk))

theorem abortFrom_good {pc : Pc} (hpc : (s.tx t).pc = pc) (hheld : held pc.core = [])
    (hne : ∀ rest, phase pc.core ≠ .writing rest) (rest : List CellAddr) :
    (backend T).Good m₀ s t s.shared ((s.tx t).abortFrom rest) :=
  Backend.end_good h (congrArg Pc.core hpc) hheld hne (core_abortFrom _ _)
    ((h.tx t).2.2.abortFrom rest)

theorem abortRelease_good {a : CellAddr} {rest : List CellAddr}
    (hpc : (s.tx t).pc = .abortRelease (a :: rest))
    (hfree : isLocked (s.shared.gGuards (getGuardIdx a)) = false) :
    (backend T).Good m₀ s t (abortRelease s.shared (s.tx t) a rest).1
      (abortRelease s.shared (s.tx t) a rest).2 := by
  have hsame : (abortRelease s.shared (s.tx t) a rest).1 = s.shared := by
    show s.shared.setGuard _ _ _ = s.shared
    rw [unlock_of_not_locked hfree, Shared.setGuard, Function.update_eq_self]
  rw [hsame]
  exact abortFrom_good h hpc rfl (by simp [phase, Pc.core]) rest

end Commit

/-- The word whose guard the next access of `abort_tx` releases. -/
def cleared : Pc → List CellAddr
  | .abortRelease (a :: _) => [a]
  | _ => []

/-- The guard that the next access of `commit` releases with a new version. -/
def released : Pc → List GuardIdx
  | .release (ℓ :: _) => [ℓ]
  | _ => []

/-- The side condition: a release of `abort_tx` finds the guard unlocked, and the version of
a guard does not wrap. -/
def Careful (s : Threads (Shared T) Tx T) (l : T × Call) (_ : Threads (Shared T) Tx T) : Prop :=
  (∀ a ∈ cleared (s.tx l.1).pc, isLocked (s.shared.gGuards (getGuardIdx a)) = false) ∧
  ∀ ℓ ∈ released (s.tx l.1).pc, ((s.tx l.1).acqVersion ℓ).toNat + 1 < 2 ^ 63

omit [DecidableEq T] in
instance (s : Threads (Shared T) Tx T) (l : T × Call) (s' : Threads (Shared T) Tx T) :
    Decidable (Careful s l s') :=
  @instDecidableAnd _ _ (List.decidableBAll _ _) (List.decidableBAll _ _)

theorem next_good (h : (backend T).Inv m₀ s) {c : Call} {p : Shared T × Tx}
    (hnext : next t s.shared (s.tx t) c = some p)
    (hcond : Careful s (t, c) (s.put t p.1 p.2)) : (backend T).Good m₀ s t p.1 p.2 := by
  have hown := (h.tx t).2.2
  unfold next at hnext
  split at hnext <;> cases hnext
  · next ts hpc =>
      exact Backend.begin_good h (congrArg Pc.core hpc) rfl rfl
        ⟨hown.stamp, fun _ hk => absurd hk List.not_mem_nil⟩
  · next hpc => exact abortFrom_good h hpc rfl (by simp [phase, Pc.core]) _
  · next a hpc =>
      refine Backend.readImpl_good h (congrArg Pc.core hpc) (a := a) ?_ ?_
      · show (backend T).core (Tx.readImpl _ a) = TL2.Tx.readImpl ((backend T).core _) a
        rw [Tx.readImpl, TL2.Tx.readImpl,
          show ((backend T).core _).find a = (s.tx t).find a from rfl]
        cases (s.tx t).find a <;> rfl
      · show Own _ (Tx.readImpl _ a)
        unfold Tx.readImpl
        split
        · exact hown.keep rfl (List.Subset.refl _) rfl
        · exact hown.keep hpc (List.nil_subset _) rfl
  · next a v hpc =>
      exact Backend.writeImpl_good h (congrArg Pc.core hpc) rfl
        (hown.keep rfl (List.Subset.refl _) rfl)
  · next hpc => exact abortFrom_good h hpc rfl (by simp [phase, Pc.core]) _
  · next hpc =>
      show (backend T).Good m₀ s t s.shared (if _ then _ else _)
      split
      · exact Backend.end_good h (congrArg Pc.core hpc) rfl (by simp [phase, Pc.core]) rfl
          (hown.keep hpc (List.nil_subset _) rfl)
      · refine Backend.commitStart_good h (congrArg Pc.core hpc) ?_ ⟨hown.stamp, fun _ hk => ?_⟩
        · simp only [backend, Tx.commitStart, core_acquireNext]
          rfl
        · rw [Tx.commitStart, core_acquireNext, held_acquireNext] at hk
          exact absurd hk List.not_mem_nil
  · next a hpc =>
      exact Backend.noteGuard_good h (congrArg Pc.core hpc) rfl
        (hown.keep hpc (List.nil_subset _) rfl)
  · next a version hpc =>
      exact Backend.readValue_good h (congrArg Pc.core hpc) rfl
        (hown.keep hpc (List.nil_subset _) rfl)
  · next e rest hl hpc =>
      exact acquireLoad_good h hpc rfl e rest (Backend.here h (congrArg Pc.core hpc))
  · next guard e rest hl hpc => exact acquireCas_good h hpc
  · next guard e rest hl hpc =>
      exact acquireLoad_good h hpc rfl e rest (Backend.here h (congrArg Pc.core hpc)).1
  · next ℓ rest hpc =>
      exact Backend.giveBack_good h (congrArg Pc.core hpc) rfl rfl (core_fail _ _) trivial
        (hown.fail hpc (List.subset_cons_self _ _))
  · next hl ts hpc =>
      have hstamped : Own s.shared.book.ver { s.tx t with
          commitVersion := ts.val, hist.cv := some (s.shared.book.clock + 1) } :=
        ⟨ts.lt, hown.acq⟩
      exact Backend.tick_good h (congrArg Pc.core hpc) (core_validateFrom _ _ _ _) trivial
        (hstamped.validateFrom hpc _ _)
  · next r rest hl hpc =>
      by_cases hstale : r.stale hl (s.shared.gGuards (getGuardIdx r.dataAddr)) = true
      · rw [if_pos hstale]
        exact Backend.fail_good h (congrArg Pc.core hpc) rfl (core_fail _ _)
          (hown.fail hpc (List.Subset.refl _))
      · rw [if_neg hstale]
        exact Backend.validate_good h (congrArg Pc.core hpc) (Bool.eq_false_of_not_eq_true hstale)
          (core_validateFrom _ _ _ _) trivial (hown.validateFrom hpc _ _)
  · next w rest hl hpc =>
      refine Backend.writeBack_good h (congrArg Pc.core hpc) rfl ?_ trivial
        (hown.keep hpc ?_ rfl)
      · by_cases hnil : rest = []
        · simp [hnil, backend, Pc.core]
        · simp [hnil, backend, Pc.core]
      · by_cases hnil : rest = []
        · simp [hnil, Pc.core, held]
        · simp [hnil, Pc.core, held]
  · next ℓ rest hpc => exact release_good h hpc (hcond.2 ℓ (by simp [released, hpc]))
  · next a rest hpc => exact abortRelease_good h hpc (hcond.1 a (by simp [cleared, hpc]))

end TscTM
