import ClangTM.Rust.TinySTM.Wbctl.Invariant

/-!
# The steps of WBCTL keep the invariant

One lemma for every access. Three of them need more than the code checks: a validation load
must not find a lock of another transaction, the locks of a transaction without writes must
be free at their versions when it commits, and the version of a lock must not wrap.
-/

namespace Rust.TinySTM.Wbctl

open Serial Transition Certify

variable {T : Type} [DecidableEq T] {m₀ : Addr → Word} {s : Threads (Cells T) (Tx Addr) T}
  {t : T}

abbrev Good (m₀ : Addr → Word) (s : Threads (Cells T) (Tx Addr) T) (t : T) (σ : Cells T)
    (x : Tx Addr) : Prop :=
  (phased T).Good m₀ s t σ x

abbrev view (s : Threads (Cells T) (Tx Addr) T) : Proto T := (phased T).design.view s

theorem not_pending (hne : ∀ w rest, phase (s.tx t) ≠ .writing (w :: rest)) (a : Addr) :
    ¬((phased T).loc (s.tx t)).Pending a :=
  Local.not_pending hne a

theorem bodyPhase {x : Tx Addr} (hx : phase x = if x.aborted then .failing else .active)
    (rest : List (Addr × Word)) : phase x ≠ .writing rest := by
  rw [hx]
  split <;> simp

section Body

variable (h : (phased T).design.Inv m₀ s)
include h

variable {k : Addr}

theorem here {pc : Pc Addr} (hpc : (s.tx t).pc = pc) :
    Here m₀ (view s) { s.tx t with pc := pc } := by
  subst hpc
  exact (h.tx t).2.here

theorem noLocked : (s.tx t).lockedAddrs = [] := (h.tx t).2.lockedAddrs

theorem goto_good {p : Pc Addr} (q : Pc Addr) (hpc : (s.tx t).pc = p)
    (hphase : phase { s.tx t with pc := q } = phase { s.tx t with pc := p })
    (hheld : held q = held p) (hne : ∀ w rest, phase { s.tx t with pc := p } ≠ .writing (w :: rest))
    (hhere : Here m₀ (view s) { s.tx t with pc := q }) :
    Good m₀ s t s.shared { s.tx t with pc := q } := by
  subst hpc
  refine Phased.good_same h (not_pending hne) ?_ ⟨noLocked h, hhere⟩
  show loc _ = loc _
  rw [loc, loc, hphase, hheld]

/-- From one access of a transaction to another. -/
theorem access_good {p : Pc Addr} (q : Pc Addr) (hpc : (s.tx t).pc = p)
    (hp : phase { s.tx t with pc := p } = if (s.tx t).aborted then .failing else .active)
    (hq : phase { s.tx t with pc := q } = if (s.tx t).aborted then .failing else .active)
    (hheld : held q = held p) (hhere : Here m₀ (view s) { s.tx t with pc := q }) :
    Good m₀ s t s.shared { s.tx t with pc := q } :=
  goto_good h q hpc (hq.trans hp.symm) hheld (fun _ _ => bodyPhase hp _) hhere

theorem setAborted_good {x : Tx Addr} (hheld : held (s.tx t).pc = [])
    (hne : ∀ rest, phase (s.tx t) ≠ .writing rest) (hphase : phase x = .failing)
    (hx : held x.pc = []) (hhist : x.hist = (s.tx t).hist) (hextra : Extra m₀ (view s) x) :
    Good m₀ s t s.shared x := by
  have hadv := (h.tx t).1.fail h.proto hne (reads x.readSet) x.writeSet
  have hloc : (phased T).loc x =
      ⟨.failing, ((phased T).loc (s.tx t)).held, reads x.readSet, x.writeSet,
        ((phased T).loc (s.tx t)).hist⟩ := by
    show loc x = ⟨.failing, held (s.tx t).pc, _, _, (s.tx t).hist⟩
    rw [loc, hphase, hx, hheld, hhist]
  rw [← hloc] at hadv
  refine Phased.good_local h (not_pending fun _ _ => hne _) hadv ?_
  have hview : (view s).put t s.shared.book x.hist = view s := by
    rw [hhist]
    exact Design.put_hist_self
  show Extra m₀ ((view s).put t s.shared.book x.hist) x
  rwa [hview]

theorem begin_good (hpc : (s.tx t).pc = .out) :
    Good m₀ s t s.shared { s.tx t with pc := .beginClock } :=
  goto_good h .beginClock hpc rfl rfl nofun trivial

theorem beginClock_good (hpc : (s.tx t).pc = .beginClock) :
    Good m₀ s t s.shared (Tx.begin s.shared.gClock) := by
  have hadv := (h.tx t).1.begin (show phase (s.tx t) = .idle by simp [phase, hpc])
  exact Phased.good_local h (not_pending (by simp [phase, hpc])) hadv ⟨rfl, trivial⟩

theorem readWord_good (hpc : (s.tx t).pc = .body) (k : Addr) :
    Good m₀ s t s.shared ((s.tx t).readWord k) := by
  have hne := bodyPhase (x := s.tx t) (by simp [phase, hpc])
  rw [Tx.readWord, wsGet_eq]
  cases hw : (s.tx t).writeSet.lookup k with
  | none =>
      exact access_good h (.readLocked k 0) hpc rfl rfl rfl hw
  | some v =>
      simp only [Option.map_some, if_true]
      by_cases hab : (s.tx t).aborted = true
      · rw [if_pos hab]
        exact Phased.good_same h (not_pending fun _ _ => hne _) rfl ⟨noLocked h, (h.tx t).2.here⟩
      · rw [if_neg hab]
        have hadv := (h.tx t).1.readOwn (show phase (s.tx t) = .active by simp [phase, hpc, hab])
          (show (loc (s.tx t)).writeSet.lookup k = some v from hw)
        exact Phased.good_local h (not_pending fun _ _ => hne _) hadv
            ⟨noLocked h, by simp [Here, hpc]⟩

theorem writeWord_good (hpc : (s.tx t).pc = .body) (k : Addr) (v : Word) :
    Good m₀ s t s.shared ((s.tx t).writeWord .wbctl k v) := by
  have hne := bodyPhase (x := s.tx t) (by simp [phase, hpc])
  rw [Tx.writeWord]
  by_cases hab : (s.tx t).aborted = true
  · rw [if_pos hab]
    exact Phased.good_same h (not_pending fun _ _ => hne _) rfl ⟨noLocked h, (h.tx t).2.here⟩
  · have hactive : phase (s.tx t) = .active := by simp [phase, hpc, hab]
    rw [if_neg hab, wsGet_isSome]
    cases hw : (s.tx t).writeSet.lookup k with
    | none =>
        rw [if_neg (by simp)]
        exact access_good h (.writeLocked k v 0) hpc rfl rfl rfl ⟨hw, by simpa using hab⟩
    | some w =>
        have hsome : ((s.tx t).writeSet.lookup k).isSome := by rw [hw]; rfl
        have hsets := ((h.tx t).1.hereAt hactive).1
        rw [if_pos (by simp)]
        have hadv := (h.tx t).1.write hactive k v _ _ (lookup_wsWrite hsome)
          (nodup_wsWrite hsome hsets.nodup) (List.Subset.refl _)
        exact Phased.good_local h (not_pending fun _ _ => hne _) hadv
          ⟨noLocked h, by simp [Here, Tx.noteWrite, hpc]⟩

theorem readLocked_good {spins : ℕ} (hpc : (s.tx t).pc = .readLocked k spins) (w : Word) :
    Good m₀ s t s.shared ((s.tx t).readLocked .wbctl k spins w) := by
  have hne := bodyPhase (x := s.tx t) (by simp [phase, hpc])
  have hw : (s.tx t).writeSet.lookup k = none := here h hpc
  have hnext : Good m₀ s t s.shared { s.tx t with pc := .readVersion k } :=
    access_good h (.readVersion k) hpc rfl rfl rfl hw
  rw [Tx.readLocked]
  by_cases hl : isLocked w = true
  · rw [if_pos hl, if_neg (by simp [noLocked h])]
    exact Phased.good_same h (not_pending fun _ _ => hne _) rfl ⟨noLocked h, (h.tx t).2.here⟩
  · rw [if_neg hl]
    exact hnext

theorem readVersion_good (hpc : (s.tx t).pc = .readVersion k) :
    Good m₀ s t s.shared
      { s.tx t with pc := .readValue k (version (s.shared.locks (lockOf k))) } :=
  access_good h _ hpc rfl rfl rfl ⟨here h hpc, (h.shape.ver _).le⟩

theorem readValue_good {ver : Word} (hpc : (s.tx t).pc = .readValue k ver) (current : Word) :
    Good m₀ s t s.shared { s.tx t with pc := .readAgain k ver (s.shared.mem k) current } := by
  obtain ⟨hw, hle⟩ := here h hpc
  refine access_good h _ hpc rfl rfl rfl ⟨hw, hle, fun _ hset => ?_⟩
  exact (Phased.mem_of_settled h hset).symm

theorem noteRead_good {ver value : Word} {current : Word}
    (hpc : (s.tx t).pc = .readAgain k ver value current) :
    Good m₀ s t s.shared ((s.tx t).noteRead k ver value current) := by
  have hne := bodyPhase (x := s.tx t) (by simp [phase, hpc])
  obtain ⟨hw, hseen⟩ := here h hpc
  rw [Tx.noteRead]
  by_cases hab : (s.tx t).aborted = true
  · rw [if_pos hab]
    exact setAborted_good h (by simp [hpc, held]) hne (by simp [phase, hab]) rfl rfl
      ⟨noLocked h, trivial⟩
  · rw [if_neg hab]
    have hadv := (h.tx t).1.read (show phase (s.tx t) = .active by simp [phase, hpc, hab])
      (show (loc (s.tx t)).writeSet.lookup k = none from hw) hseen
      (reads ((s.tx t).readSet ++ [(k, ver)]))
      (by rw [reads_append]; exact List.subset_append_left _ _)
          (mem_reads (r := (k, ver)) (by simp))
    have hloc : (phased T).loc (s.tx t) = ⟨.active, [], reads (s.tx t).readSet,
        (s.tx t).writeSet, (s.tx t).hist⟩ := by
      show loc _ = _
      simp [loc, phase, held, hpc, hab]
    rw [hloc] at hadv
    refine Phased.good_local h (not_pending fun _ _ => hne _) ?_ ⟨noLocked h, trivial⟩
    show Advance _ _ _ _ _ (loc _)
    rw [loc, phase, if_neg hab]
    exact hadv

theorem readAgain_good {ver value current : Word}
    (hpc : (s.tx t).pc = .readAgain k ver value current) (w : Word) :
    Good m₀ s t s.shared ((s.tx t).readAgain k ver value current w) := by
  obtain ⟨hw, -⟩ := here h hpc
  rw [Tx.readAgain]
  split
  · split
    · exact noteRead_good h hpc
    · exact access_good h (.extendClock k) hpc rfl rfl rfl hw
  · exact access_good h (.readLocked k 0) hpc rfl rfl rfl hw

theorem extendFrom_good (last : Word) (rest : List (Addr × Word))
    (hphase : phase (s.tx t) = if (s.tx t).aborted then .failing else .active)
    (hheld : held (s.tx t).pc = []) (hw : (s.tx t).writeSet.lookup k = none) :
    Good m₀ s t s.shared ((s.tx t).extendFrom k last rest) := by
  have hne := bodyPhase hphase
  rw [Tx.extendFrom]
  split
  · refine Phased.good_same h (not_pending fun _ _ => hne _) ?_ ⟨noLocked h, hw⟩
    show loc _ = loc _
    rw [loc, loc, hphase, hheld]
    rfl
  · exact goto_good h (.extendCheck k last rest) rfl (by rw [hphase]; rfl) (by rw [hheld]; rfl)
      (fun _ _ => hne _) hw

theorem extendCheck_good {last : Word} {r : Addr × Word} {rest : List (Addr × Word)}
    (hpc : (s.tx t).pc = .extendCheck k last (r :: rest)) :
    Good m₀ s t s.shared
      (if version (s.shared.locks (lockOf r.1)) = r.2 then (s.tx t).extendFrom k last rest
        else (s.tx t).setAborted .body) := by
  split
  · exact extendFrom_good h last rest (by simp [phase, hpc]) (by simp [hpc, held]) (here h hpc)
  · exact setAborted_good h (by simp [hpc, held]) (bodyPhase (by simp [phase, hpc])) rfl rfl rfl
      ⟨noLocked h, trivial⟩

theorem writeLocked_good {v : Word} {spins : ℕ} (hpc : (s.tx t).pc = .writeLocked k v spins)
    (w : Word) : Good m₀ s t s.shared ((s.tx t).writeLocked .wbctl k v spins w) := by
  have hne := bodyPhase (x := s.tx t) (by simp [phase, hpc])
  have hhere := here h hpc
  rw [Tx.writeLocked]
  by_cases hl : isLocked w = true
  · rw [if_pos hl, if_neg (by simp)]
    exact Phased.good_same h (not_pending fun _ _ => hne _) rfl ⟨noLocked h, (h.tx t).2.here⟩
  · rw [if_neg hl]
    exact access_good h (.writeVersion k v) hpc rfl rfl rfl hhere

theorem writeVersion_good {v : Word} (hpc : (s.tx t).pc = .writeVersion k v) (w : Word) :
    Good m₀ s t s.shared ((s.tx t).writeVersion .wbctl k v w) := by
  have hne := bodyPhase (x := s.tx t) (by simp [phase, hpc])
  obtain ⟨hw, hab⟩ := here h hpc
  have hab : (s.tx t).aborted = false := hab
  have hw : (s.tx t).writeSet.lookup k = none := hw
  rw [Tx.writeVersion]
  split
  · exact setAborted_good h (by simp [hpc, held]) hne rfl rfl rfl ⟨noLocked h, trivial⟩
  · have hactive : phase (s.tx t) = .active := by simp [phase, hpc, hab]
    have hsets := ((h.tx t).1.hereAt hactive).1
    have hput : putBack k v (s.tx t).writeSet = (s.tx t).writeSet ++ [(k, v)] := by
      simp [putBack, hw]
    have hadv := (h.tx t).1.write hactive k v
      (reads ((s.tx t).readSet ++ [(k, version w)])) ((s.tx t).writeSet ++ [(k, v)])
      (fun b => by rw [← hput]; exact lookup_putBack k b v _)
      (by rw [← hput]; exact nodup_putBack hsets.nodup)
      (by rw [reads_append]; exact List.subset_append_left _ _)
    have hloc : (phased T).loc (s.tx t) = ⟨.active, [], reads (s.tx t).readSet,
        (s.tx t).writeSet, (s.tx t).hist⟩ := by
      show loc _ = _
      simp [loc, phase, held, hpc, hab]
    rw [hloc] at hadv
    refine Phased.good_local h (not_pending fun _ _ => hne _) ?_ ⟨noLocked h, trivial⟩
    show Advance _ _ _ _ _ (loc _)
    rw [loc, phase, Tx.noteWrite, hab]
    exact hadv

theorem finish_good (hheld : held (s.tx t).pc = [])
    (hne : ∀ rest, phase (s.tx t) ≠ .writing rest) (result : Option Bool) :
    Good m₀ s t s.shared ((s.tx t).finish result) :=
  Phased.good_local h (not_pending fun _ _ => hne _)
    ((h.tx t).1.abort h.proto hne hheld _ _) ⟨rfl, trivial⟩

theorem rollback_good (hpc : (s.tx t).pc = .body) (result : Option Bool) :
    Good m₀ s t s.shared ((s.tx t).rollback .wbctl (s.tx t).lockedAddrs result) := by
  rw [noLocked h]
  exact finish_good h (by simp [hpc, held]) (bodyPhase (by simp [phase, hpc])) result

end Body

omit [DecidableEq T] in
theorem setLock_shape {σ : Cells T} (h : Shape σ) {idx : LockIdx} {w : Word}
    {book : Book Addr Word LockIdx T} (hlocked : isLocked w = true ↔ book.owner idx ≠ none)
    (hver : (version w).toNat = book.ver idx)
    (howner : ∀ ℓ, ℓ ≠ idx → book.owner ℓ = σ.book.owner ℓ)
    (hvers : ∀ ℓ, ℓ ≠ idx → book.ver ℓ = σ.book.ver ℓ) : Shape (σ.setLock idx w book) := by
  refine ⟨fun ℓ => ?_, fun ℓ => ?_⟩
  · by_cases hℓ : ℓ = idx
    · subst hℓ
      simpa [Shared.setLock] using hlocked
    · simpa [Shared.setLock, hℓ, howner ℓ hℓ] using h.locked ℓ
  · by_cases hℓ : ℓ = idx
    · subst hℓ
      simpa [Shared.setLock] using hver
    · simpa [Shared.setLock, hℓ, hvers ℓ hℓ] using h.ver ℓ

omit [DecidableEq T] in
theorem lockFrom_extra {v : Proto T} {rest held : List LockIdx} {x : Tx Addr}
    (hl : x.lockedAddrs = []) (hcov : Covered x held rest) :
    Extra m₀ v (x.lockFrom rest held) := by
  cases rest with
  | nil => exact ⟨hl, hcov⟩
  | cons idx rest => exact ⟨hl, hcov⟩

section Commit

variable (h : (phased T).design.Inv m₀ s)
include h

variable {idx : LockIdx} {hl : List LockIdx} {rest : List (Addr × Word)} {ts : Word}

/-- A transaction without writes commits; the locks of what it read are free and have the
versions that it noted. -/
theorem commitReadOnly_good (hpc : (s.tx t).pc = .body) (hab : (s.tx t).aborted = false)
    (hnil : (s.tx t).writeSet = [])
    (hfree : ∀ r ∈ (s.tx t).readSet, isLocked (s.shared.locks (lockOf r.1)) = false ∧
      version (s.shared.locks (lockOf r.1)) = r.2) :
    Good m₀ s t
      { s.shared with
        book := s.shared.book.commitReadOnly s.shared.book.clock (s.tx t).hist.trace }
      ((s.tx t).finish (some true)) := by
  have hactive : phase (s.tx t) = .active := by simp [phase, hpc, hab]
  have hok := (h.tx t).1
  obtain ⟨hsets, hcv⟩ := hok.hereAt hactive
  have hdone : (s.tx t).hist.done = false := hok.not_done h.proto (by
    show ∀ rest, phase (s.tx t) ≠ .writing rest
    simp [hactive])
  have hadv := hok.commitReadOnly hactive (by show held (s.tx t).pc = []; simp [hpc, held]) hnil
    le_rfl (fun r hr => ?_) [] []
  · refine Phased.good_of_advance (not_pending (by simp [hactive])) hadv ?_ ⟨rfl, trivial⟩ rfl
      fun _ => rfl
    exact ⟨h.shape.locked, h.shape.ver⟩
  · obtain ⟨e, he, heq⟩ := List.mem_map.1 (hsets.reads r hr)
    obtain ⟨hunlocked, hver⟩ := hfree e he
    obtain ⟨haddr, hrver⟩ := Prod.mk.inj heq
    rw [haddr] at hunlocked hver
    refine h.proto.kept_of_check_readOnly hdone hr (fun u hu => ?_) ?_
    · have hlocked := (h.shape.locked (lockOf r.addr)).2 (by
        rw [show s.shared.book.owner (lockOf r.addr) = some u from hu]
        simp)
      simp [hunlocked] at hlocked
    · rw [← hrver, ← hver]
      exact (h.shape.ver _).symm

theorem commitStart_good (hpc : (s.tx t).pc = .body) (hab : (s.tx t).aborted = false) :
    Good m₀ s t s.shared ((s.tx t).commitStart .wbctl) := by
  have hactive : phase (s.tx t) = .active := by simp [phase, hpc, hab]
  refine Phased.good_same h (not_pending (by simp [hactive])) ?_
    (lockFrom_extra (noLocked h) fun w hw => .inr ?_)
  · show loc _ = loc _
    rw [Tx.commitStart, loc, loc, hactive, hpc]
    cases sortDedup ((s.tx t).writeSet.map fun e => lockOf e.1) <;> rfl
  · rw [mem_sortDedup]
    exact List.mem_map_of_mem hw

theorem lock_good {rest hl : List LockIdx} (hpc : (s.tx t).pc = .lock idx rest hl) :
    Good m₀ s t s.shared
      (if isLocked (s.shared.locks idx) then s.tx t
        else { s.tx t with pc := .lockCas (s.shared.locks idx) idx rest hl }) := by
  have hcov := here h hpc
  have hne : ∀ w r, phase (s.tx t) ≠ .writing (w :: r) := by simp [phase, hpc]
  split
  · exact Phased.good_same h (not_pending hne) rfl ⟨noLocked h, (h.tx t).2.here⟩
  · next hfree =>
      exact goto_good h (.lockCas _ idx rest hl) hpc rfl rfl nofun
        ⟨hcov, by simpa using hfree⟩

theorem lockWeak_good {cur : Word} {rest hl : List LockIdx}
    (hpc : (s.tx t).pc = .lockCas cur idx rest hl) :
    Good m₀ s t s.shared { s.tx t with pc := .lock idx rest hl } :=
  goto_good h (.lock idx rest hl) hpc rfl rfl nofun (here h hpc).1

theorem lockCas_good {cur : Word} {rest hl : List LockIdx}
    (hpc : (s.tx t).pc = .lockCas cur idx rest hl) :
    Good m₀ s t (lockCas t s.shared (s.tx t) cur idx rest hl).1
      (lockCas t s.shared (s.tx t) cur idx rest hl).2 := by
  obtain ⟨hcov, hunlocked⟩ := here h hpc
  unfold lockCas
  by_cases hcur : s.shared.locks idx = cur
  · rw [if_pos hcur]
    have hactive : phase (s.tx t) = .active := by simp [phase, hpc]
    have hfree : s.shared.book.owner idx = none := by
      by_contra hne
      have hlocked := (h.shape.locked idx).2 hne
      rw [hcur, hunlocked] at hlocked
      cases hlocked
    have hadv := (h.tx t).1.acquire hactive hfree
    have hloc : (phased T).loc ((s.tx t).lockFrom rest (hl ++ [idx])) =
        { (phased T).loc (s.tx t) with held := ((phased T).loc (s.tx t)).held ++ [idx] } := by
      show loc _ = ⟨phase (s.tx t), held (s.tx t).pc ++ [idx], _, _, _⟩
      rw [hactive, hpc]
      cases rest <;> rfl
    rw [← hloc] at hadv
    refine Phased.good_of_advance (not_pending (by simp [hactive])) hadv ?_
      (lockFrom_extra (noLocked h) fun w hw => ?_) rfl fun _ => rfl
    · refine setLock_shape h.shape (by simp) ?_ (fun ℓ hℓ => by simp [hℓ]) fun _ _ => rfl
      rw [version_locked, ← hcur]
      exact h.shape.ver idx
    · rcases hcov w hw with hw | hw
      · exact .inl (List.mem_append_left _ hw)
      · rcases List.mem_cons.1 hw with hw | hw
        · exact .inl (List.mem_append_right _ (List.mem_singleton.2 hw))
        · exact .inr hw
  · rw [if_neg hcur]
    exact lockWeak_good h hpc

/-- The read set has been checked up to `rest`; with nothing left the transaction
commits. -/
theorem validateFrom_good {σ : Cells T} {x : Tx Addr}
    (hne : ∀ w r, phase (s.tx t) ≠ .writing (w :: r))
    (hadv : Advance lockOf m₀ (view s) t σ.book
      ⟨.checking (reads rest), hl, reads x.readSet, x.writeSet, x.hist⟩)
    (hl' : x.lockedAddrs = []) (hshape : Shape σ) (hmem : σ.mem = s.shared.mem)
    (hlog : ∀ a, memAt m₀ σ.book.log σ.book.clock a = (view s).mem m₀ (view s).clock a) :
    Good m₀ s t (validateFrom .wbctl σ x rest hl ts).1 (validateFrom .wbctl σ x rest hl ts).2 := by
  cases rest with
  | cons r rest =>
      exact Phased.good_of_advance (not_pending hne) hadv hshape ⟨hl', trivial⟩ hmem hlog
  | nil =>
      exact Phased.good_commit h hadv.moves hadv.ok rfl (not_pending hne) hlog rfl rfl
        ⟨hshape.locked, hshape.ver⟩ ⟨hl', trivial⟩ hmem

theorem tick_good (hpc : (s.tx t).pc = .tick hl) :
    Good m₀ s t (gcTick .wbctl s.shared (s.tx t) hl).1
      (gcTick .wbctl s.shared (s.tx t) hl).2 := by
  have hcov : Covered (s.tx t) hl [] := here h hpc
  have hactive : phase (s.tx t) = .active := by simp [phase, hpc]
  have hheld : held (s.tx t).pc = hl := by simp [hpc, held]
  have hadv := (h.tx t).1.tick h.proto hactive fun w hw => by
    show lockOf w.1 ∈ held (s.tx t).pc
    rw [hheld]
    exact (hcov w hw).resolve_right (by simp)
  refine validateFrom_good h (by simp [hactive]) ?_ (noLocked h) ⟨h.shape.locked, h.shape.ver⟩ rfl
    fun a => ?_
  · rw [← hheld]
    exact hadv
  · exact congrFun (memAt_succ_of_none (h.proto.log_above (Nat.lt_succ_self _))) a

/-- An entry that has its version, with a lock that is free or the transaction's own. -/
theorem validate_good {r : Addr × Word} (hpc : (s.tx t).pc = .validate (r :: rest) hl ts)
    (hver : version (s.shared.locks (lockOf r.1)) = r.2)
    (hfree : isLocked (s.shared.locks (lockOf r.1)) = true → lockOf r.1 ∈ hl) :
    Good m₀ s t (validateFrom .wbctl s.shared (s.tx t) rest hl ts).1
      (validateFrom .wbctl s.shared (s.tx t) rest hl ts).2 := by
  have hphase : phase (s.tx t) = .checking (reads (r :: rest)) := by simp [phase, hpc]
  have hheld : held (s.tx t).pc = hl := by simp [hpc, held]
  have hok := (h.tx t).1
  have hadv := hok.check h.proto hphase (fun u hu => ?_) ?_
  · refine validateFrom_good h (by simp [hphase]) ?_ (noLocked h) h.shape rfl fun _ => rfl
    rw [← hheld]
    exact hadv
  · have hlocked := (h.shape.locked (lockOf r.1)).2 (by
      rw [show s.shared.book.owner (lockOf r.1) = some u from hu]
      simp)
    have hown := (hok.held (lockOf r.1)).2 (by
      show lockOf r.1 ∈ held (s.tx t).pc
      rw [hheld]
      exact hfree hlocked)
    exact Option.some.inj (hu.symm.trans hown)
  · show s.shared.book.ver (lockOf r.1) = r.2.toNat
    rw [← hver]
    exact (h.shape.ver _).symm

theorem invalid_good {r : List (Addr × Word)} (hpc : (s.tx t).pc = .validate r hl ts) :
    Good m₀ s t s.shared ((s.tx t).rollback .wbctl hl (some false)) := by
  have hphase : phase (s.tx t) = .checking (reads r) := by simp [phase, hpc]
  have hheld : held (s.tx t).pc = hl := by simp [hpc, held]
  have hne : ∀ rest, phase (s.tx t) ≠ .writing rest := by simp [hphase]
  show Good m₀ s t s.shared ((s.tx t).unlockFrom (sortDedup hl) (some false))
  rw [Tx.unlockFrom]
  split
  · next hnil =>
      refine finish_good h ?_ hne _
      rwa [hheld, ← sortDedup_eq_nil]
  · have hadv := ((h.tx t).1.fail h.proto hne (reads (s.tx t).readSet) (s.tx t).writeSet).reorder
      (sortDedup hl) (fun ℓ => ?_) (nodup_sortDedup _)
    · refine Phased.good_local h (not_pending fun _ _ => hne _) hadv ⟨noLocked h, trivial⟩
    · rw [mem_sortDedup]
      show ℓ ∈ hl ↔ ℓ ∈ held (s.tx t).pc
      rw [hheld]

theorem writeBack_good {w : Addr × Word} (hpc : (s.tx t).pc = .writeBack (w :: rest) hl) :
    Good m₀ s t { s.shared with mem := Function.update s.shared.mem w.1 w.2 }
      (if rest = [] then (s.tx t).unlockFrom (sortDedup hl) (some true)
        else { s.tx t with pc := .writeBack rest hl }) := by
  have hphase : phase (s.tx t) = .writing (w :: rest) := by simp [phase, hpc]
  have hheld : held (s.tx t).pc = hl := by simp [hpc, held]
  have hshape : Shape { s.shared with mem := Function.update s.shared.mem w.1 w.2 } :=
    ⟨h.shape.locked, h.shape.ver⟩
  have hfirst := (((h.tx t).1.hereAt hphase).2.2 w List.mem_cons_self).1
  by_cases hnil : rest = []
  · rw [if_pos hnil, Tx.unlockFrom, if_neg]
    · refine Phased.good_store h hphase (fun ℓ => ?_) (nodup_sortDedup hl) rfl ?_ hshape
        ⟨noLocked h, trivial⟩ rfl
      · rw [mem_sortDedup]
        show ℓ ∈ hl ↔ ℓ ∈ held (s.tx t).pc
        rw [hheld]
      · subst hnil
        rfl
    · rw [sortDedup_eq_nil]
      rintro rfl
      have hmem : lockOf w.1 ∈ held (s.tx t).pc := hfirst
      rw [hheld] at hmem
      exact List.not_mem_nil hmem
  · rw [if_neg hnil]
    refine Phased.good_store h hphase (fun ℓ => Iff.rfl) (h.tx t).1.nodup rfl ?_ hshape
      ⟨noLocked h, trivial⟩ rfl
    show _ = Local.mk _ (held (s.tx t).pc) _ _ _
    rw [hheld]
    rfl

theorem unlock_good {rest : List LockIdx} {result : Option Bool}
    (hpc : (s.tx t).pc = .unlock (idx :: rest) result) :
    Good m₀ s t s.shared
      { s.tx t with pc := .unlockStore (version (s.shared.locks idx)) idx rest result } := by
  refine goto_good h _ hpc rfl rfl (fun w r => ?_) (h.shape.ver idx).symm
  simp only [phase]
  split <;> simp

theorem unlockStore_good {ver : Word} {rest : List LockIdx} {result : Option Bool}
    (hpc : (s.tx t).pc = .unlockStore ver idx rest result) (hbound : ver.toNat + 1 < 2 ^ 56) :
    Good m₀ s t (s.shared.giveBack (s.tx t) idx (ver + 1) result)
      ((s.tx t).unlockFrom rest result) := by
  have hver : s.shared.book.ver idx = ver.toNat := here h hpc
  have hheld : held (s.tx t).pc = idx :: rest := by simp [hpc, held]
  have hnew : (version (unlockedTo (ver + 1))).toNat = ver.toNat + 1 := by
    have hone : (1 : Word).toNat = 1 := rfl
    rw [toNat_version_unlockedTo, BitVec.toNat_add, hone]
    omega
  have hok := (h.tx t).1
  have hshape : Shape (s.shared.giveBack (s.tx t) idx (ver + 1) result) := by
    refine setLock_shape h.shape ?_ ?_ (fun ℓ hℓ => ?_) fun ℓ hℓ => ?_ <;>
      by_cases hr : result = some true <;> simp [*]
  have hlog : ∀ a, memAt m₀ (s.shared.giveBack (s.tx t) idx (ver + 1) result).book.log
      (s.shared.giveBack (s.tx t) idx (ver + 1) result).book.clock a =
        (view s).mem m₀ (view s).clock a := fun a => by
    unfold Shared.giveBack
    split <;> rfl
  have hne : ∀ w r, phase (s.tx t) ≠ .writing (w :: r) := by
    intro w r
    simp only [phase, hpc]
    split <;> simp
  by_cases hr : result = some true
  · subst hr
    have hphase : phase (s.tx t) = .writing [] := by simp [phase, hpc]
    have hadv := hok.release h.proto hphase hheld
      (show s.shared.book.ver idx < (version (unlockedTo (ver + 1))).toNat by
        rw [hver, hnew]; exact Nat.lt_succ_self _)
    rw [Tx.unlockFrom]
    split
    · next hnil =>
        subst hnil
        exact Phased.good_of_advance (not_pending hne) (hadv.trans (hadv.ok.finish hphase rfl _ _))
          hshape ⟨rfl, trivial⟩ rfl hlog
    · refine Phased.good_of_advance (not_pending hne) ?_ hshape ⟨noLocked h, trivial⟩ rfl hlog
      rw [show (phased T).loc (s.tx t) = ⟨.writing [], _, _, _, _⟩ by
        show Local.mk _ _ _ _ _ = _; rw [hphase]] at hadv
      exact hadv
  · have hphase : phase (s.tx t) = .failing := by simp [phase, hpc, hr]
    have hadv := hok.unlock hphase hheld
      (show s.shared.book.ver idx ≤ (version (unlockedTo (ver + 1))).toNat by
        rw [hver, hnew]; exact Nat.le_succ _)
    have hbook : (s.shared.giveBack (s.tx t) idx (ver + 1) result).book =
        (view s).unlock idx (version (unlockedTo (ver + 1))).toNat := if_neg hr
    rw [← hbook] at hadv
    rw [Tx.unlockFrom]
    split
    · next hnil =>
        subst hnil
        have hend := hadv.ok.abort (hadv.moves.inv h.proto)
          (fun r hw => by rw [show phase (s.tx t) = .writing r from hw] at hphase; cases hphase)
          rfl (reads []) []
        exact Phased.good_of_advance (not_pending hne) (hadv.trans hend) hshape ⟨rfl, trivial⟩ rfl
          hlog
    · refine Phased.good_of_advance (not_pending hne) ?_ hshape ⟨noLocked h, trivial⟩ rfl hlog
      show Advance _ _ _ _ _ (loc _)
      rw [loc, show phase { s.tx t with pc := .unlock rest result } = .failing from if_neg hr]
      rw [show (phased T).loc (s.tx t) = ⟨.failing, _, _, _, _⟩ by
        show Local.mk _ _ _ _ _ = _; rw [hphase]] at hadv
      exact hadv

end Commit

/-- The entry of the read set that the validation of `tm_commit` looks at next. -/
def checked : Pc Addr → List (Addr × Word)
  | .validate (r :: _) _ _ => [r]
  | _ => []

def bumped : Pc Addr → List ℕ
  | .unlockStore ver _ _ _ => [ver.toNat]
  | _ => []

def commitsReadOnly (x : Tx Addr) : TmCall Addr → Bool
  | .commit =>
      match x.pc with
      | .body => !x.aborted && x.writeSet.isEmpty
      | _ => false
  | _ => false

/-- What a step has to find besides what the code checks: a load of the validation finds
the lock free or the transaction's own; when a transaction without writes commits, the locks
of its read set are free and have the versions it noted; and no version wraps. -/
def Undisturbed (s : Threads (Cells T) (Tx Addr) T) (l : T × TmCall Addr)
    (_ : Threads (Cells T) (Tx Addr) T) : Prop :=
  (∀ r ∈ checked (s.tx l.1).pc,
    isLocked (s.shared.locks (lockOf r.1)) = true → lockOf r.1 ∈ held (s.tx l.1).pc) ∧
  (commitsReadOnly (s.tx l.1) l.2 = true → ∀ r ∈ (s.tx l.1).readSet,
    isLocked (s.shared.locks (lockOf r.1)) = false ∧
      version (s.shared.locks (lockOf r.1)) = r.2) ∧
  ∀ n ∈ bumped (s.tx l.1).pc, n + 1 < 2 ^ 56

omit [DecidableEq T] in
instance (s : Threads (Cells T) (Tx Addr) T) (l : T × TmCall Addr)
    (s' : Threads (Cells T) (Tx Addr) T) : Decidable (Undisturbed s l s') :=
  @instDecidableAnd _ _ (List.decidableBAll _ _)
    (@instDecidableAnd _ _ (@instDecidableForall _ _ _ (List.decidableBAll _ _))
      (List.decidableBAll _ _))

theorem tmCommit_good (h : (phased T).design.Inv m₀ s) (hpc : (s.tx t).pc = .body)
    (hfree : (s.tx t).aborted = false → (s.tx t).writeSet = [] → ∀ r ∈ (s.tx t).readSet,
      isLocked (s.shared.locks (lockOf r.1)) = false ∧
        version (s.shared.locks (lockOf r.1)) = r.2) :
    Good m₀ s t (tmCommit .wbctl s.shared (s.tx t)).1 (tmCommit .wbctl s.shared (s.tx t)).2 := by
  unfold tmCommit
  by_cases hab : (s.tx t).aborted = true
  · rw [if_pos hab]
    exact rollback_good h hpc _
  · rw [if_neg hab]
    have hab' : (s.tx t).aborted = false := by simpa using hab
    by_cases hnil : (s.tx t).writeSet = []
    · rw [if_pos hnil]
      exact commitReadOnly_good h hpc hab' hnil (hfree hab' hnil)
    · rw [if_neg hnil]
      exact commitStart_good h hpc hab'

theorem next_good (h : (phased T).design.Inv m₀ s) {c : TmCall Addr} {p : Cells T × Tx Addr}
    (hnext : next .wbctl t s.shared (s.tx t) c = some p)
    (hcond : Undisturbed s (t, c) (s.put t p.1 p.2)) : Good m₀ s t p.1 p.2 := by
  have hx := (h.tx t).2.here
  unfold next at hnext
  obtain ⟨hfree, hro, hbound⟩ := hcond
  split at hnext <;> try cases hnext
  case h_16 hpc | h_17 hpc | h_18 hpc | h_19 hpc | h_20 hpc | h_21 hpc | h_22 hpc | h_23 hpc
      | h_32 hpc | h_33 hpc => simp [Here, hpc] at hx
  · next hpc => exact begin_good h hpc
  · next hpc => exact beginClock_good h hpc
  · next k hpc => exact readWord_good h hpc k
  · next k v hpc => exact writeWord_good h hpc k v
  · next hpc => exact rollback_good h hpc none
  · next hpc =>
      refine tmCommit_good h hpc fun hab hnil => hro ?_
      simp [commitsReadOnly, hpc, hab, hnil]
  · next k spins hpc => exact readLocked_good h hpc _
  · next k hpc =>
      exact access_good h .body hpc rfl rfl rfl trivial
  · next k hpc => exact readVersion_good h hpc
  · next k ver hpc => exact readValue_good h hpc _
  · next k ver value current hpc => exact readAgain_good h hpc _
  · next k hpc =>
      exact extendFrom_good h _ _ (by simp [phase, hpc]) (by simp [hpc, held]) (here h hpc)
  · next k last r rest hpc => exact extendCheck_good h hpc
  · next k v spins hpc => exact writeLocked_good h hpc _
  · next k v hpc => exact writeVersion_good h hpc _
  · next idx rest hl hpc => exact lock_good h hpc
  · next cur idx rest hl hpc => exact lockCas_good h hpc
  · next cur idx rest hl hpc => exact lockWeak_good h hpc
  · next hl hpc => exact tick_good h hpc
  · next r rest hl ts hpc =>
      by_cases hver : version (s.shared.locks (lockOf r.1)) = r.2
      · rw [if_pos hver]
        exact validate_good h hpc hver (by simpa [checked, held, hpc] using hfree)
      · rw [if_neg hver]
        exact invalid_good h hpc
  · next w rest hl hpc => exact writeBack_good h hpc
  · next idx rest result hpc => exact unlock_good h hpc
  · next ver idx rest result hpc => exact unlockStore_good h hpc (hbound _ (by simp [bumped, hpc]))

end Rust.TinySTM.Wbctl
