import ClangTM.Rust.Nvhtm.Invariant

/-!
# The steps of `nvhtm` and `spht`

Every step keeps the invariant, as long as the clock does not wrap.
-/

namespace Rust.Nvhtm

open Serial Transition CommitLock

variable {T : Type} {m₀ : Addr → Word}

def Bounded (s : Threads (Shared T) Tx T) (l : T × Call) (_ : Threads (Shared T) Tx T) : Prop :=
  match (s.tx l.1).pc, l.2 with
  | .acquireCas _, .tau => s.shared.gClock.toNat + 3 < 2 ^ 64
  | _, _ => True

instance (s : Threads (Shared T) Tx T) (l : T × Call) (s' : Threads (Shared T) Tx T) :
    Decidable (Bounded s l s') := by
  unfold Bounded
  split <;> infer_instance

section Body

variable {σ : Shared T} {x : Tx}

theorem mem_idxs {ℓ : LockIdx} : ℓ ∈ x.idxs ↔ ∃ w ∈ x.writeSet, lockIndex w.1 = ℓ := by
  simp [Tx.idxs, List.mem_insertionSort]

theorem nodup_idxs : x.idxs.Nodup := List.nodup_dedup _

theorem readWord_knows (h : Knows σ x) (hpc : x.pc = .body) (a : Addr) :
    Knows σ (x.readWord a) ∧ (x.readWord a).pc.holding = false := by
  have hhold : x.pc.holding = false := by rw [hpc]; rfl
  unfold Tx.readWord
  split
  · exact ⟨h, hhold⟩
  · cases hv : x.writeSet.lookup a with
    | some v =>
        refine ⟨⟨h.buffered.readOwn hv, h.replayed.read a v, h.fresh, h.listed, h.begun,
          fun htrue => absurd (htrue.symm.trans hhold) (by simp), ?_⟩, hhold⟩
        unfold Here
        rw [hpc]
        trivial
    | none => exact ⟨h.goto (by simp [Pc.holding]) hv, rfl⟩

theorem writeWord_knows (h : Knows σ x) (hpc : x.pc = .body) (a : Addr) (v : Word) :
    Knows σ (x.writeWord a v) ∧ (x.writeWord a v).pc = .body := by
  have hhold : x.pc.holding = false := by rw [hpc]; rfl
  unfold Tx.writeWord
  split
  · exact ⟨h, hpc⟩
  · refine ⟨⟨h.buffered.write a v, h.replayed.write a v, h.fresh, h.listed, h.begun,
      fun htrue => absurd (htrue.symm.trans hhold) (by simp), ?_⟩, hpc⟩
    unfold Here
    rw [hpc]
    trivial

theorem noteRead_knows (h : Knows σ x) {a : Addr} {ver val : Word}
    (hnone : x.writeSet.lookup a = none)
    (hfresh : Fresh lockIndex (core σ) ⟨a, ver.toNat, val⟩) :
    Knows σ (x.noteRead a ver val) ∧ (x.noteRead a ver val).pc.holding = false := by
  unfold Tx.noteRead
  split
  · exact ⟨⟨h.buffered, h.replayed, h.fresh, h.listed, h.begun, by simp [Pc.holding], trivial⟩, rfl⟩
  · refine ⟨⟨?_, h.replayed.read a val, fun r hr => ?_, fun r hr => ?_, h.begun,
      by simp [Pc.holding], trivial⟩, rfl⟩
    · have hread := h.buffered.read (v := val) hnone
      simpa using hread
    · rcases List.mem_append.1 hr with hr | hr
      · exact h.fresh r hr
      · rw [List.mem_singleton.1 hr]
        exact hfresh
    · rcases List.mem_append.1 hr with hr | hr
      · obtain ⟨ver', hmem, hver⟩ := h.listed r hr
        exact ⟨ver', List.mem_append_left _ hmem, hver⟩
      · rw [List.mem_singleton.1 hr]
        exact ⟨ver, by simp, rfl⟩

theorem legal_of_reads (h : Knows σ x) (hreads : ∀ r ∈ x.reads, σ.mem r.addr = r.val) :
    Legal σ.mem x.ops := by
  refine h.buffered.legal fun p hp => ?_
  obtain ⟨r, hr, rfl⟩ := List.mem_map.1 hp
  exact hreads r hr

end Body

section Locks

variable {σ : Shared T} {ℓ i : LockIdx}

theorem version_setLock : version ((setLock σ ℓ).locks i) = version (σ.locks i) := by
  simp only [setLock, Function.update_apply]
  split
  · next heq => rw [heq, version_or_one]
  · rfl

theorem core_setLock : core (setLock σ ℓ) = core σ := by
  simp only [core, version_setLock]
  rfl

theorem isLocked_setLock :
    isLocked ((setLock σ ℓ).locks i) = true ↔ i = ℓ ∨ isLocked (σ.locks i) = true := by
  simp only [setLock, Function.update_apply]
  split
  · next heq =>
      rw [isLocked_iff, toNat_or_one]
      exact ⟨fun _ => .inl heq, fun _ => by omega⟩
  · next hne => simp [hne]

end Locks

section Steps

variable [DecidableEq T] {s : Threads (Shared T) Tx T} {t : T} (h : (system T m₀).Inv s)
include h

variable {cur : Word} {rest : List (Addr × Word)}

theorem local_inv {x : Tx} {pc : Pc} (hpc : (s.tx t).pc = pc) (hhold : x.pc.holding = pc.holding)
    (hx : Knows s.shared x) : (system T m₀).Inv (s.put t s.shared x) :=
  h.put_same rfl h.shape (fun _ hy => hy) (hhold.trans (congrArg Pc.holding hpc).symm) hx

omit [DecidableEq T] in
theorem holder_eq {pc : Pc} (hpc : (s.tx t).pc = pc) (hhold : pc.holding = true) :
    s.shared.holder = some t :=
  (h.holder t).1 ((congrArg Pc.holding hpc).trans hhold)

theorem commitReadOnly_inv (hpc : (s.tx t).pc = .body) :
    (system T m₀).Inv (s.put t (commitReadOnly s.shared (s.tx t)).1
      (commitReadOnly s.shared (s.tx t)).2) := by
  have hk : Knows s.shared (s.tx t) := h.knows t
  have hhold : (s.tx t).pc.holding = false := by rw [hpc]; rfl
  refine h.put_same rfl ?_ (fun y hy => hy.record _) hhold.symm (Knows.finish _ _)
  · refine { h.shape with ro := fun r hr hsettled => ?_ }
    rcases List.mem_cons.1 hr with rfl | hr
    · obtain ⟨heven, hall⟩ := Bool.and_eq_true_iff.1 hsettled
      have heven := (and_one_eq_zero_iff _).1 (beq_iff_eq.1 heven)
      have hnone : s.shared.holder = none := by
        by_contra hne
        have hodd := h.shape.odd.2 hne
        omega
      obtain ⟨hpending, hdirty⟩ := (h.shape.idle hnone).1
      refine ⟨s.shared.log.length, hk.begun, le_rfl, le_rfl, s.shared.mem, ?_,
        legal_of_reads hk fun r hr => (hk.fresh r hr).value ?_ ?_⟩
      · have hruns := h.shape.runs
        rw [hpending] at hruns
        show SerialRun m₀ (s.shared.log.take s.shared.log.length) _
        rw [List.take_length]
        exact hruns
      · show lockIndex r.addr ∉ s.shared.dirty
        simp [hdirty]
      · obtain ⟨ver, hmem, hver⟩ := hk.listed r hr
        have hsame := beq_iff_eq.1 (List.all_eq_true.1 hall _ hmem)
        exact ((congrArg BitVec.toNat hsame).trans hver).le
    · exact h.shape.ro r hr hsettled

theorem acquireCas_inv (hpc : (s.tx t).pc = .acquireCas cur)
    (hlt : s.shared.gClock.toNat + 3 < 2 ^ 64) :
    (system T m₀).Inv (s.put t (acquireCas t s.shared (s.tx t) cur).1
      (acquireCas t s.shared (s.tx t) cur).2) := by
  have hk : Knows s.shared (s.tx t) := h.knows t
  have heven : cur.toNat % 2 = 0 := hk.at hpc
  unfold acquireCas
  split
  · next hcur =>
      subst hcur
      have hnone : s.shared.holder = none := by
        by_contra hne
        have hodd := h.shape.odd.2 hne
        omega
      obtain ⟨hidle, hfree⟩ := h.shape.idle hnone
      have hclock : (s.shared.gClock ||| 1).toNat = s.shared.gClock.toNat + 1 := by
        rw [toNat_or_one]
        omega
      have he : Evolves lockIndex (core s.shared)
          (core { s.shared with gClock := s.shared.gClock ||| 1, holder := some t }) :=
        .of_eq rfl rfl rfl rfl rfl
      have hver := h.shape.ver_le
      refine h.put (.inr hnone) he ?_ rfl ?_
      · refine ⟨h.shape.runs, h.shape.covered, ?_, fun hnone => (by cases hnone), fun ℓ => ?_, ?_,
          h.shape.ro⟩
        · show (s.shared.gClock ||| 1).toNat % 2 = 1 ↔ some t ≠ none
          rw [hclock]
          simp
          omega
        · show 2 * (version (s.shared.locks ℓ)).toNat ≤
            (s.shared.gClock ||| 1).toNat + (s.shared.gClock ||| 1).toNat % 2
          have hver := hver ℓ
          rw [hclock]
          omega
        · show (s.shared.gClock ||| 1).toNat + 1 < 2 ^ 64
          rw [hclock]
          omega
      · refine Knows.goto (x := s.tx t) ⟨hk.buffered, hk.replayed, fun r hr =>
          (hk.fresh r hr).evolves he, hk.listed, hk.begun, fun htrue => ?_, ?_⟩ (fun _ ℓ => ?_)
          ⟨List.suffix_rfl, hidle, fun ℓ _ => ?_⟩
        · rw [hpc] at htrue
          cases htrue
        · unfold Here
          rw [hpc]
          exact heven
        · have hheld : ({ s.tx t with pc := .lock (s.tx t).idxs } : Tx).held = [] :=
            List.filter_eq_nil_iff.2 fun ℓ (hℓ : ℓ ∈ (s.tx t).idxs) => by simpa using hℓ
          rw [hheld]
          exact hfree ℓ
        · show 2 * (version (s.shared.locks ℓ)).toNat < (s.shared.gClock ||| 1).toNat
          have hver := hver ℓ
          rw [hclock]
          omega
  · exact local_inv h hpc rfl (hk.goto (by simp [Pc.holding]) trivial)

theorem validateFrom_inv {pc : Pc} (hpc : (s.tx t).pc = pc) (hhold : pc.holding = true)
    (hlocked : Locked s.shared (s.tx t).idxs) (hidle : s.shared.Idle)
    (hlow : Low s.shared (s.tx t).idxs)
    (hreads : ∀ r ∈ (s.tx t).reads, Tx.Due rest r ∨ s.shared.mem r.addr = r.val) :
    (system T m₀).Inv (s.put t (validateFrom s.shared (s.tx t) rest).1
      (validateFrom s.shared (s.tx t) rest).2) := by
  have hk : Knows s.shared (s.tx t) := h.knows t
  have hholder := holder_eq h hpc hhold
  unfold validateFrom
  split
  · next hnil =>
      have hreads : ∀ r ∈ (s.tx t).reads, s.shared.mem r.addr = r.val := fun r hr =>
        (hreads r hr).resolve_left fun ⟨_, hmem, _⟩ => by
          rw [hnil] at hmem
          cases hmem
      have he : Evolves lockIndex (core s.shared) (core { s.shared with
          pending := (s.tx t).writeBacks
          dirty := (s.tx t).idxs
          log := s.shared.log ++ [(s.tx t).ops] }) :=
        .mark rfl rfl (fun ℓ => le_rfl) hidle.2 (by simp [core])
      refine h.put (.inl hholder) he ?_ hholder ?_
      · refine { h.shape with
          runs := ?_
          covered := fun w hw => ?_
          idle := fun hnone => ?_
          ro := fun r hr hsettled => (h.shape.ro r hr hsettled).append _ }
        · have hruns := h.shape.runs
          rw [hidle.1] at hruns
          refine serialRun_append hruns ⟨legal_of_reads hk hreads, ?_⟩
          exact (hk.replayed.writes _).symm
        · obtain ⟨u, hu, heq⟩ := List.mem_map.1 (hk.replayed.logged w hw)
          exact mem_idxs.2 ⟨u, hu, congrArg lockIndex heq⟩
        · have hnone : s.shared.holder = none := hnone
          rw [hholder] at hnone
          cases hnone
      · exact ⟨hk.buffered, hk.replayed, fun r hr => (hk.fresh r hr).evolves he, hk.listed,
          hk.begun.trans he.commits, fun _ => hlocked, rfl, rfl, hlow⟩
  · exact local_inv h hpc hhold.symm (hk.goto (fun _ => hlocked) ⟨hidle, hlow, hreads⟩)

theorem lockCas_inv {ℓ : LockIdx} {rest : List LockIdx}
    (hpc : (s.tx t).pc = .lockCas cur (ℓ :: rest)) :
    (system T m₀).Inv (s.put t (lockCas s.shared (s.tx t) cur ℓ rest).1
      (lockCas s.shared (s.tx t) cur ℓ rest).2) := by
  have hk : Knows s.shared (s.tx t) := h.knows t
  have hholder := holder_eq h hpc rfl
  obtain ⟨hsuffix, hidle, hlow⟩ : (ℓ :: rest) <:+ (s.tx t).idxs ∧ _ ∧ Low _ _ := hk.at hpc
  have hheld : Locked s.shared ((s.tx t).idxs.filter fun i => i ∉ ℓ :: rest) := hk.lockedAt hpc rfl
  have hnodup : ℓ ∉ rest := (List.nodup_cons.1 (nodup_idxs.sublist hsuffix.sublist)).1
  have hlocked : ∀ i, isLocked ((setLock s.shared ℓ).locks i) = true ↔
      i ∈ (s.tx t).idxs ∧ i ∉ rest := by
    intro i
    rw [isLocked_setLock, hheld i, List.mem_filter]
    have hmem : ℓ ∈ (s.tx t).idxs := hsuffix.subset List.mem_cons_self
    by_cases heq : i = ℓ
    · simp [heq, hmem, hnodup]
    · simp [heq]
  have hinv : ∀ pc : Pc, pc.holding = true →
      Locked (setLock s.shared ℓ) { s.tx t with pc := pc }.held →
      Here (setLock s.shared ℓ) { s.tx t with pc := pc } →
      (system T m₀).Inv (s.put t (setLock s.shared ℓ) { s.tx t with pc := pc }) := by
    intro pc hhold hheld hhere
    refine h.put (.inl hholder) ?_ ?_ ?_ ?_
    · show Evolves lockIndex (core s.shared) (core (setLock s.shared ℓ))
      rw [core_setLock]
      exact .of_eq rfl rfl rfl rfl rfl
    · exact { h.shape with
        idle := fun hnone => by
          have hnone : s.shared.holder = none := hnone
          rw [hholder] at hnone
          cases hnone
        ver_le := fun i => by
          rw [version_setLock]
          exact h.shape.ver_le i }
    · show s.shared.holder = if pc.holding then some t else none
      rw [hholder, hhold, if_pos rfl]
    · exact ⟨hk.buffered, hk.replayed, by rw [core_setLock]; exact hk.fresh, hk.listed, hk.begun,
        fun _ => hheld, hhere⟩
  have hlow' : Low (setLock s.shared ℓ) (s.tx t).idxs := fun i hi => by
    rw [version_setLock]
    exact hlow i hi
  unfold lockCas
  split
  · split
    · next hnil =>
        have hall : Locked (setLock s.shared ℓ) (s.tx t).idxs := fun i => by
          rw [hlocked, hnil]
          simp
        have hs := hinv (.validate (s.tx t).readSet) rfl hall
          ⟨hidle, hlow', fun r hr => .inl (hk.listed r hr)⟩
        have hend := validateFrom_inv (t := t) hs
          (by rw [Threads.put_tx_self]) rfl (by rw [Threads.put_tx_self]; exact hall) hidle
          (by rw [Threads.put_tx_self]; exact hlow')
          (by rw [Threads.put_tx_self]; exact fun r hr => .inl (hk.listed r hr))
        rw [Threads.put_tx_self, Threads.put_put] at hend
        exact hend
    · refine hinv (.lock rest) rfl (fun i => ?_)
        ⟨(List.suffix_cons ℓ rest).trans hsuffix, hidle, hlow'⟩
      rw [hlocked]
      show _ ↔ i ∈ (s.tx t).idxs.filter fun i => i ∉ rest
      simp
  · exact local_inv h hpc rfl (hk.goto (fun _ => hheld) ⟨hsuffix, hidle, hlow⟩)

theorem validate_inv {r : Addr × Word} (hpc : (s.tx t).pc = .validate (r :: rest)) :
    (system T m₀).Inv (s.put t (validate s.shared (s.tx t) r rest).1
      (validate s.shared (s.tx t) r rest).2) := by
  have hk : Knows s.shared (s.tx t) := h.knows t
  obtain ⟨hidle, hlow, hreads⟩ : _ ∧ Low _ _ ∧ _ := hk.at hpc
  have hlocked : Locked s.shared (s.tx t).idxs := hk.lockedAt hpc rfl
  unfold validate
  split
  · next hver =>
      refine validateFrom_inv h hpc rfl hlocked hidle hlow fun r' hr' => ?_
      rcases hreads r' hr' with ⟨ver, hmem, hle⟩ | hmem
      · rcases List.mem_cons.1 hmem with heq | hmem
        · refine .inr ((hk.fresh r' hr').value ?_ ?_)
          · show lockIndex r'.addr ∉ s.shared.dirty
            simp [hidle.2]
          · subst heq
            rw [← hle]
            exact (congrArg BitVec.toNat hver).le
        · exact .inl ⟨ver, hmem, hle⟩
      · exact .inr hmem
  · refine local_inv h hpc rfl (hk.goto (fun _ => hlocked)
        ⟨hidle.1, fun ℓ hℓ => ?_, nodup_idxs, hlow⟩)
    rw [hidle.2] at hℓ
    cases hℓ

theorem writeBack_inv {w : Addr × Word} (hpc : (s.tx t).pc = .writeBack (w :: rest)) :
    (system T m₀).Inv (s.put t (writeBack s.shared (s.tx t) w rest).1
      (writeBack s.shared (s.tx t) w rest).2) := by
  have hk : Knows s.shared (s.tx t) := h.knows t
  have hholder := holder_eq h hpc rfl
  obtain ⟨hpending, hdirty, hlow⟩ :
      s.shared.pending = w :: rest ∧ s.shared.dirty = (s.tx t).idxs ∧ Low _ _ := hk.at hpc
  have hlocked : Locked s.shared (s.tx t).idxs := hk.lockedAt hpc rfl
  have hmem : lockIndex w.1 ∈ s.shared.dirty :=
    h.shape.covered w (by rw [hpending]; exact List.mem_cons_self)
  have he : Evolves lockIndex (core s.shared) (core (writeBack s.shared (s.tx t) w rest).1) := by
    refine .write (fun a ha => ?_) rfl rfl rfl rfl
    have hne : a ≠ w.1 := fun heq => ha (heq ▸ hmem)
    simp [core, writeBack, hne]
  have hknows : ∀ pc : Pc, Locked s.shared { s.tx t with pc := pc }.held →
      Here (writeBack s.shared (s.tx t) w rest).1 { s.tx t with pc := pc } →
      Knows (writeBack s.shared (s.tx t) w rest).1 { s.tx t with pc := pc } := fun pc hheld hhere =>
    ⟨hk.buffered, hk.replayed, fun r hr => (hk.fresh r hr).evolves he, hk.listed, hk.begun,
      fun _ => hheld, hhere⟩
  refine h.put (.inl hholder) he ?_ ?_ ?_
  · refine { h.shape with
      runs := ?_
      covered := fun u hu => h.shape.covered u (by rw [hpending]; exact List.mem_cons_of_mem w hu)
      idle := fun hnone => ?_ }
    · have hruns := h.shape.runs
      rw [hpending] at hruns
      exact hruns
    · have hnone : s.shared.holder = none := hnone
      rw [hholder] at hnone
      cases hnone
  · show s.shared.holder =
      if (if rest = [] then Pc.unlock (s.tx t).idxs true else .writeBack rest).holding then some t
      else none
    rw [hholder]
    split <;> rfl
  · show Knows _
        { s.tx t with pc := if rest = [] then .unlock (s.tx t).idxs true else .writeBack rest }
    split
    · next hnil =>
        refine hknows (.unlock (s.tx t).idxs true) hlocked ⟨hnil, fun ℓ hℓ => ?_, nodup_idxs, hlow⟩
        rw [← hdirty]
        exact hℓ
    · exact hknows (.writeBack rest) hlocked ⟨rfl, hdirty, hlow⟩

theorem unlockStore_inv {ℓ : LockIdx} {rest : List LockIdx} {result : Bool}
    (hpc : (s.tx t).pc = .unlockStore cur (ℓ :: rest) result) :
    (system T m₀).Inv (s.put t (unlockStore s.shared (s.tx t) cur ℓ rest result).1
      (unlockStore s.shared (s.tx t) cur ℓ rest result).2) := by
  have hk : Knows s.shared (s.tx t) := h.knows t
  have hholder := holder_eq h hpc rfl
  obtain ⟨⟨hpending, hdirty, hnodup, hlow⟩, hcur⟩ :
      Returning s.shared (ℓ :: rest) ∧ ∀ i ∈ (ℓ :: rest).head?, s.shared.locks i = cur := hk.at hpc
  have hcur : s.shared.locks ℓ = cur := hcur ℓ rfl
  have hlocked : Locked s.shared (ℓ :: rest) := hk.lockedAt hpc rfl
  have hodd : s.shared.gClock.toNat % 2 = 1 := h.shape.odd.2 (by rw [hholder]; simp)
  have hroom := h.shape.room
  have hlowℓ := hlow ℓ List.mem_cons_self
  have hver := toNat_version (s.shared.locks ℓ)
  have hword : (unlocked cur).toNat = 2 * ((version (s.shared.locks ℓ)).toNat + 1) := by
    rw [← hcur, toNat_unlocked (by omega), hver]
  let σ := (unlockStore s.shared (s.tx t) cur ℓ rest result).1
  have hlocks : ∀ i, σ.locks i = if i = ℓ then unlocked cur else s.shared.locks i := fun i =>
    Function.update_apply _ _ _ _
  have hverℓ : ∀ i, (version (σ.locks i)).toNat =
      if i = ℓ then (version (s.shared.locks i)).toNat + 1 else
          (version (s.shared.locks i)).toNat := by
    intro i
    rw [hlocks]
    split
    · next heq =>
        rw [toNat_version, hword, heq]
        omega
    · rfl
  have hle : ∀ i, (core s.shared).ver i ≤ (core σ).ver i := by
    intro i
    show _ ≤ (version (σ.locks i)).toNat
    rw [hverℓ]
    split
    · exact Nat.le_succ _
    · exact le_rfl
  have hfilter : ∀ i, i ∈ σ.dirty ↔ i ∈ s.shared.dirty ∧ i ≠ ℓ := by
    intro i
    simp [σ, unlockStore]
  have he : Evolves lockIndex (core s.shared) (core σ) := by
    refine .stamp rfl hle hle (fun i hi => ?_) rfl
    by_cases heq : i = ℓ
    · refine .inr ?_
      show _ < (version (σ.locks i)).toNat
      rw [hverℓ, if_pos heq]
      exact Nat.lt_succ_self _
    · exact .inl ((hfilter i).2 ⟨hi, heq⟩)
  have hlocked' : Locked σ rest := by
    intro i
    rw [hlocks]
    split
    · next heq =>
        rw [isLocked_iff, hword, heq]
        exact ⟨fun hone => by omega, fun hmem => absurd hmem (List.nodup_cons.1 hnodup).1⟩
    · next hne =>
        rw [hlocked i]
        simp [hne]
  have hreturning : Returning σ rest := by
    refine ⟨hpending, fun i hi => ?_, (List.nodup_cons.1 hnodup).2, fun i hi => ?_⟩
    · obtain ⟨hi, hne⟩ := (hfilter i).1 hi
      exact (List.mem_cons.1 (hdirty i hi)).resolve_left hne
    · have hne : i ≠ ℓ := fun heq => (List.nodup_cons.1 hnodup).1 (heq ▸ hi)
      rw [hverℓ, if_neg hne]
      exact hlow i (List.mem_cons_of_mem ℓ hi)
  have hknows : ∀ pc : Pc, Locked σ { s.tx t with pc := pc }.held →
      Here σ { s.tx t with pc := pc } → Knows σ { s.tx t with pc := pc } := fun pc hheld hhere =>
    ⟨hk.buffered, hk.replayed, fun r hr => (hk.fresh r hr).evolves he, hk.listed, hk.begun,
      fun _ => hheld, hhere⟩
  refine h.put (.inl hholder) he ?_ ?_ ?_
  · refine { h.shape with
      covered := fun w hw => ?_
      idle := fun hnone => ?_
      ver_le := fun i => ?_ }
    · have hw : w ∈ s.shared.pending := hw
      rw [hpending] at hw
      cases hw
    · have hnone : s.shared.holder = none := hnone
      rw [hholder] at hnone
      cases hnone
    · show 2 * (version (σ.locks i)).toNat ≤ s.shared.gClock.toNat + s.shared.gClock.toNat % 2
      have hold := h.shape.ver_le i
      rw [hverℓ]
      split
      · next heq =>
          rw [heq]
          omega
      · exact hold
  · show s.shared.holder =
      if (if rest = [] then Pc.release result else .unlock rest result).holding then some t
          else none
    rw [hholder]
    split <;> rfl
  · show Knows σ { s.tx t with pc := if rest = [] then .release result else .unlock rest result }
    split
    · next hnil =>
        subst hnil
        refine hknows (.release result) hlocked'
          ⟨hpending, List.eq_nil_iff_forall_not_mem.2 fun i hi => ?_⟩
        cases hreturning.dirty i hi
    · exact hknows (.unlock rest result) hlocked' hreturning

theorem release_inv {result : Bool} (hpc : (s.tx t).pc = .release result) :
    (system T m₀).Inv (s.put t (release s.shared result).1 (release s.shared result).2) := by
  have hk : Knows s.shared (s.tx t) := h.knows t
  have hholder := holder_eq h hpc rfl
  have hidle : s.shared.Idle := hk.at hpc
  have hlocked : Locked s.shared [] := hk.lockedAt hpc rfl
  have hodd : s.shared.gClock.toNat % 2 = 1 := h.shape.odd.2 (by rw [hholder]; simp)
  have hroom := h.shape.room
  have hclock : (s.shared.gClock + 1).toNat = s.shared.gClock.toNat + 1 := by
    have hone : (1 : Word).toNat = 1 := rfl
    rw [BitVec.toNat_add, hone]
    omega
  refine h.put (.inl hholder) (.of_eq rfl rfl rfl rfl rfl) ?_ rfl (Knows.finish _ _)
  refine ⟨h.shape.runs, h.shape.covered, ?_, fun _ => ⟨hidle, hlocked⟩, fun ℓ => ?_, ?_, h.shape.ro⟩
  · show (s.shared.gClock + 1).toNat % 2 = 1 ↔ (none : Option T) ≠ none
    rw [hclock]
    simp
    omega
  · show 2 * (version (s.shared.locks ℓ)).toNat ≤
      (s.shared.gClock + 1).toNat + (s.shared.gClock + 1).toNat % 2
    have hver := h.shape.ver_le ℓ
    rw [hclock]
    omega
  · show (s.shared.gClock + 1).toNat + 1 < 2 ^ 64
    rw [hclock]
    omega

theorem next_inv {d : Variant} {c : Call} {q : Shared T × Tx}
    (hnext : next d t s.shared (s.tx t) c = some q) (hb : Bounded s (t, c) s) :
    (system T m₀).Inv (s.put t q.1 q.2) := by
  have hk : Knows s.shared (s.tx t) := h.knows t
  unfold next at hnext
  split at hnext <;> cases hnext
  · next hpc => exact local_inv h hpc rfl (.blank rfl rfl rfl rfl (Nat.zero_le _) rfl trivial)
  · next hpc =>
      unfold begin
      split
      · rw [Threads.put_self]
        exact h
      · exact local_inv h hpc rfl (.blank rfl rfl rfl rfl le_rfl rfl trivial)
  · next a hpc =>
      obtain ⟨hknows, hfalse⟩ := readWord_knows hk hpc a
      exact local_inv h hpc hfalse hknows
  · next a v hpc =>
      obtain ⟨hknows, hbody⟩ := writeWord_knows hk hpc a v
      exact local_inv h hpc (congrArg Pc.holding hbody) hknows
  · next hpc => exact local_inv h hpc rfl (Knows.finish _ _)
  · next hpc =>
      unfold commit
      split
      · exact local_inv h hpc rfl (Knows.finish _ _)
      · split
        · exact commitReadOnly_inv h hpc
        · exact local_inv h hpc rfl (hk.goto (by simp [Pc.holding]) trivial)
  · next a hpc =>
      split
      · rw [Threads.put_self]
        exact h
      · have hhere := hk.at hpc
        exact local_inv h hpc rfl (hk.goto (by simp [Pc.holding]) hhere)
  · next a hpc => exact local_inv h hpc rfl (hk.goto (by simp [Pc.holding]) ⟨hk.at hpc, le_rfl⟩)
  · next a ver hpc =>
      obtain ⟨hnone, hle⟩ : _ ∧ _ ≤ _ := hk.at hpc
      exact local_inv h hpc rfl (hk.goto (by simp [Pc.holding]) ⟨hnone, hle, fun _ _ => rfl⟩)
  · next a ver val hpc =>
      obtain ⟨hnone, hfresh⟩ : _ ∧ Fresh _ _ _ := hk.at hpc
      split
      · obtain ⟨hknows, hfalse⟩ := noteRead_knows hk hnone hfresh
        exact local_inv h hpc hfalse hknows
      · exact local_inv h hpc rfl (hk.goto (by simp [Pc.holding]) hnone)
  · next hpc =>
      split
      · next heven =>
          exact local_inv h hpc rfl (hk.goto (by simp [Pc.holding])
              ((and_one_eq_zero_iff _).1 heven))
      · rw [Threads.put_self]
        exact h
  · next cur hpc => exact acquireCas_inv h hpc (by simpa [Bounded, hpc] using hb)
  · next hpc => exact local_inv h hpc rfl (hk.goto (by simp [Pc.holding]) trivial)
  · next ℓ rest hpc =>
      split
      · rw [Threads.put_self]
        exact h
      · have hlocked := hk.lockedAt hpc rfl
        have hhere := hk.at hpc
        exact local_inv h hpc rfl (hk.goto (fun _ => hlocked) hhere)
  · next cur ℓ rest hpc => exact lockCas_inv h hpc
  · next rest hpc =>
      have hlocked := hk.lockedAt hpc rfl
      have hhere := hk.at hpc
      exact local_inv h hpc rfl (hk.goto (fun _ => hlocked) hhere)
  · next r rest hpc => exact validate_inv h hpc
  · next w rest hpc => exact writeBack_inv h hpc
  · next ℓ rest result hpc =>
      have hlocked := hk.lockedAt hpc rfl
      refine local_inv h hpc rfl (hk.goto (fun _ => hlocked) ⟨hk.at hpc, ?_⟩)
      intro i hi
      rw [Option.mem_some_iff.1 hi]
  · next cur ℓ rest result hpc => exact unlockStore_inv h hpc
  · next result hpc => exact release_inv h hpc

end Steps

end Rust.Nvhtm
