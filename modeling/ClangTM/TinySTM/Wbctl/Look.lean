import ClangTM.TinySTM.Wbctl.Invariant

/-!
# The steps of WBCTL that only look

A step that only loads from the shared state changes the transaction of the thread,
and its history by at most one move of the protocol (`Goes`). There is one lemma for
each function of a thread, in terms of the protocol state, and `TxInv.look` puts them
together.
-/

namespace TinySTM.Wbctl

open Serial VersionLock

abbrev Goes (all : Bool) (m₀ : WordAddr → Word) (v : Proto) (t : TxId) (x : Tx) : Prop :=
  SystemGoes Tx.hist (TxInv all) m₀ v t x

section Local

variable {all : Bool} {m₀ : WordAddr → Word} {v v' : Proto} {t : TxId} {σ : Shared} {x : Tx}

theorem TxInv.goes (h : TxInv all m₀ v t x) : Goes all m₀ v t x :=
  .of_knows h.core.hist h

theorem TxInv.at (h : TxInv all m₀ v t x) {pc : Pc} (hpc : x.pc = pc) :
    PcInv m₀ v t { x with pc := pc } := by
  subst hpc
  exact h.here

theorem pcInv_body (hpc : x.pc = .body) (hcv : x.hist.cv = none) : PcInv m₀ v t x := by
  simp only [PcInv, hpc]
  exact hcv

theorem Core.goto (h : Core all m₀ v t x) {pc : Pc}
    (habort : pc.aborting = false → x.pc.aborting = false)
    (hhold : ∀ ℓ, v.owner ℓ = some t → MayHold x.pc x.locksHeld ℓ →
      MayHold pc x.locksHeld ℓ) : Core all m₀ v t { x with pc := pc } :=
  { h with
    writes := fun hpc => h.writes (habort hpc)
    mayHold := fun ℓ ho => hhold ℓ ho (h.mayHold ℓ ho) }

theorem aborting_of_regular {pc : Pc} (h : pc.regular = true) : pc.aborting = false := by
  cases pc <;> first | rfl | simp [Pc.regular] at h

section

variable (h : Core all m₀ v t x)
include h

theorem Core.goto_regular {p : Pc} (hx : x.pc.regular = true) (hp : p.regular = true) :
    Core all m₀ v t { x with pc := p } :=
  h.goto (fun _ => aborting_of_regular hx) fun _ _ hℓ =>
    (mayHold_of_regular hp).2 ((mayHold_of_regular hx).1 hℓ)

theorem Core.not_done (hinv : VersionLock.Inv lockOf m₀ v) (hcv : x.hist.cv = none) :
    x.hist.done = false := by
  rw [← h.hist] at hcv ⊢
  exact hinv.not_done hcv

theorem Core.writeSet_eq_nil (hx : x.pc.regular = true) (hhist : x.hist = {}) :
    x.writeSet = [] := by
  cases hws : x.writeSet with
  | nil => rfl
  | cons w ws =>
      have hw := h.writes (aborting_of_regular hx) w.1
      simp [hhist, hws, lookup_cons_eq] at hw

theorem Core.locksHeld_eq_nil (hws : x.writeSet = []) : x.locksHeld = [] := by
  refine List.eq_nil_iff_forall_not_mem.2 fun ℓ hℓ => ?_
  obtain ⟨w, hw, -⟩ := h.heldWritten ℓ hℓ
  simp [hws] at hw

theorem Core.safe_own (hinv : VersionLock.Inv lockOf m₀ v) (hm : Moves lockOf m₀ v t v')
    (hd : x.hist.done = false) (hd' : (v'.tx t).done = false) (ht : x.tracked all = true) :
    ∀ r ∈ x.hist.reads, r.ver ≤ x.endVersion ∧ Safe lockOf v' t r x.endVersion := by
  intro r hr
  obtain ⟨hle, hsafe⟩ := h.safe ht hd r hr
  exact ⟨hle, hm.safe hsafe (fun _ => hd') (h.ver_le hinv hd r hr) (h.endLe ht)⟩

theorem Core.abortTx (hx : x.pc.regular = true) (hd : x.hist.done = false) :
    TxInv all m₀ v t x.abortTx where
  core := h.goto (by simp [Pc.aborting]) fun _ _ hℓ => (mayHold_of_regular hx).1 hℓ
  here := hd

theorem Core.begin (hx : x.pc.regular = true) (hhist : x.hist = {}) : TxInv all m₀ v t x.begin := by
  have hws := h.writeSet_eq_nil hx hhist
  unfold Tx.begin
  split
  · exact ⟨h.goto_regular hx rfl, by simp [PcInv, hhist]⟩
  · refine ⟨{ h with
      logged := fun _ => by simp [hhist]
      writes := fun _ a => by simp [hhist]
      nodup := by simp
      readOnly := fun _ => rfl
      heldWritten := by simp
      mayHold := fun ℓ ho => ?_ }, hhist⟩
    have hℓ := (mayHold_of_regular hx).1 (h.mayHold ℓ ho)
    simp [h.locksHeld_eq_nil hws] at hℓ

theorem Core.beginAt (hx : x.pc.regular = true) (hhist : x.hist = {}) {clock : ℕ}
    (hclock : clock ≤ v.clock) : TxInv all m₀ v t (x.beginAt clock) where
  core :=
    { h.goto_regular (p := .body) hx rfl with
      endLe := fun _ => hclock
      safe := fun _ _ => by simp [Tx.beginAt, hhist]
      kept := fun _ _ => by simp [Tx.beginAt, hhist]
      readOnly := fun _ => h.writeSet_eq_nil hx hhist
      update := fun c => by simp [Tx.beginAt, hhist] }
  here := by simp [Tx.beginAt, PcInv, hhist]

section

variable (hinv : VersionLock.Inv lockOf m₀ v) (hx : x.pc.regular = true)
include hinv hx

theorem Core.softSpin {k : Spinner} (hk : k.Inv v t x) (hcv : x.hist.cv = none) :
    TxInv all m₀ v t (x.softSpin k) := by
  unfold Tx.softSpin
  split
  · exact h.abortTx hx (h.not_done hinv hcv)
  · refine ⟨h.goto_regular hx rfl, ?_⟩
    cases k <;> exact hk

theorem Core.readLoop {a : WordAddr} {l : Word} (spin : ℕ) (hcv : x.hist.cv = none)
    (ha : x.writeSet.lookup a = none) (hl : versionOf l ≤ v.ver (lockOf a)) :
    TxInv all m₀ v t (x.readLoop a l spin) := by
  unfold Tx.readLoop
  split
  · split
    · exact h.abortTx hx (h.not_done hinv hcv)
    · exact ⟨h.goto_regular hx rfl, hcv, ha⟩
  · next hfree => exact ⟨h.goto_regular hx rfl, hcv, ha, by simpa using hfree, hl⟩

theorem Core.extendTrue {k : Extender} (hk : k.Inv v t x) : TxInv all m₀ v t (x.extendTrue k) := by
  cases k with
  | readWord a l spin => exact h.readLoop hinv hx spin hk.1 hk.2.1 hk.2.2
  | writeWord a w => exact ⟨h.goto_regular hx rfl, hk⟩
  | commitLock a rest n =>
      rw [Tx.extendTrue]
      split
      · exact h.abortTx hx (h.not_done hinv hk.1)
      · exact ⟨h.goto_regular hx rfl, hk, TryLockPc.free_load⟩
  | gapCheck c =>
      refine ⟨h.goto_regular hx rfl, hk.1, hk.2.1, hk.2.2, ?_⟩
      exact fun r hr => .inl (h.logged hk.2.1 r hr)

theorem Core.extendFalse {k : Extender} (hk : k.Inv v t x) :
    TxInv all m₀ v t (x.extendFalse k) := by
  cases k with
  | readWord a l spin => exact h.softSpin hinv hx hk hk.1
  | writeWord a w => exact h.abortTx hx (h.not_done hinv hk.1)
  | commitLock a rest n => exact h.softSpin hinv hx hk hk.1
  | gapCheck c => exact h.abortTx hx hk.2.1

end

/-- `extend` moves the snapshot to the clock value it loaded, once the read set has
been checked. -/
theorem Core.extended {last : ℕ} (hd : x.hist.done = false) (hle : ∀ r ∈ x.hist.reads, r.ver ≤ last)
    (hlast : last ≤ v.clock) (hchecked : Checked v t x.hist.reads [] last) :
    Core all m₀ v t { x with endVersion := last } :=
  { h with
    endLe := fun _ => hlast
    safe := fun _ _ r hr => ⟨hle r hr, hchecked.safe hr⟩
    kept := fun _ hd' => by simp [hd] at hd' }

section

variable (hinv : VersionLock.Inv lockOf m₀ v)
include hinv

theorem Core.readWordCtl (hpc : x.pc = .body) (hcv : x.hist.cv = none) (a : WordAddr) :
    Goes all m₀ v t (x.readWordCtl a) := by
  have hd := h.not_done hinv hcv
  cases hw : x.writeSet.lookup a with
  | none =>
      rw [Tx.readWordCtl, hw]
      exact TxInv.goes ⟨h.goto_regular (by rw [hpc]; rfl) rfl, hcv, hw⟩
  | some w =>
      rw [Tx.readWordCtl, hw]
      have hm : Moves lockOf m₀ v t
          (v.setTx t { x.hist with trace := .read a w :: x.hist.trace }) := by
        rw [← h.hist] at hcv ⊢
        exact .inr (.readOwn a w hcv (by rw [h.hist, h.writes (by rw [hpc]; rfl), hw]))
      refine ⟨hm, { h with
        hist := by simp
        endLe := h.endLe
        safe := fun ht _ => h.safe_own hinv hm hd (by simp [hd]) ht
        kept := fun _ hd' => by simp [hd] at hd'
        mayHold := h.mayHold }, pcInv_body hpc hcv⟩

/-- The end of `read_word_ctl`: the two loads of the lock agree and are not newer
than the snapshot, so the value loaded between them is the committed one. -/
theorem Core.pushRead (hb : Backed m₀ σ v) (hx : x.pc.regular = true) (hcv : x.hist.cv = none)
    {a : WordAddr} {value : Word} (ha : x.writeSet.lookup a = none)
    (hfree : isOwned (σ.locks (lockOf a)) = false)
    (hseen : Seen lockOf m₀ v a (versionOf (σ.locks (lockOf a))) value)
    (hver : versionOf (σ.locks (lockOf a)) ≤ x.endVersion) :
    Goes all m₀ v t (x.pushRead a (σ.locks (lockOf a)) value) := by
  have hd := h.not_done hinv hcv
  have hown : v.owner (lockOf a) = none := by
    rw [hb.owner, lockOwner_eq_none hfree]
  have hval : v.mem m₀ v.clock a = value :=
    hseen.value (hb.ver _) fun u hu => by simp [hown] at hu
  have hm : Moves lockOf m₀ v t (v.setTx t (x.pushRead a (σ.locks (lockOf a)) value).hist) := by
    have hstep : VersionLock.Step lockOf m₀ v t _ := .read a
      (by rw [h.hist, hcv]) (fun u hu => by simp [hown] at hu)
      (by rw [h.hist, h.writes (aborting_of_regular hx), ha])
    rw [h.hist, hval, hb.ver] at hstep
    exact .inr hstep
  refine ⟨hm, { h.goto_regular (p := .body) hx rfl with
    hist := by simp
    endLe := h.endLe
    logged := ?_
    safe := ?_
    kept := fun _ hd' => by simp [Tx.pushRead, hd] at hd'
    mayHold := (h.goto_regular (p := .body) hx rfl).mayHold }, hcv⟩
  · intro _ r hr
    rcases List.mem_cons.1 hr with rfl | hr
    · exact ⟨⟨a, versionOf (σ.locks (lockOf a)), value⟩, by simp [Tx.pushRead], rfl, rfl⟩
    · obtain ⟨r', hr', heq⟩ := h.logged hd r hr
      exact ⟨r', List.mem_append_left _ hr', heq⟩
  · intro ht _ r hr
    rcases List.mem_cons.1 hr with rfl | hr
    · refine ⟨hver, (hm.inv hinv).safe_of_check (by simp [Tx.pushRead, hd]) ?_ ?_ _⟩
      · intro u hu
        simp [hown] at hu
      · simp [hb.ver]
    · exact h.safe_own hinv hm hd (by simp [Tx.pushRead, hd]) ht r hr

theorem Core.readCheck (hb : Backed m₀ σ v) (hx : x.pc.regular = true) (hcv : x.hist.cv = none)
    {a : WordAddr} {l value : Word} {spin : ℕ} (ha : x.writeSet.lookup a = none)
    (hfree : isOwned l = false) (hseen : Seen lockOf m₀ v a (versionOf l) value) :
    Goes all m₀ v t (x.readCheck a l (σ.locks (lockOf a)) value spin) := by
  unfold Tx.readCheck
  split
  · exact (h.readLoop hinv hx spin hcv ha (hb.ver _).ge).goes
  · next heq =>
      obtain rfl := not_not.1 heq
      split
      · exact TxInv.goes ⟨h.goto_regular hx rfl, hcv, ha, hseen.le⟩
      · next hver => exact h.pushRead hinv hb hx hcv ha hfree hseen (by omega)

end

end

theorem tracked_of_update (x : Tx) {x' : Tx} (h : x'.tracked all = true)
    (hx' : x'.readOnly = false) : x.tracked all = true := by
  simp_all [Tx.tracked]

section

variable (h : Core all m₀ v t x)
include h

theorem Core.noteUpdate : Core all m₀ v t { x with readOnly := false } :=
  { h with
    endLe := fun ht => h.endLe (tracked_of_update x ht rfl)
    safe := fun ht => h.safe (tracked_of_update x ht rfl)
    kept := fun ht => h.kept (tracked_of_update x ht rfl)
    readOnly := by simp
    update := fun _ _ => rfl }

section

variable (hinv : VersionLock.Inv lockOf m₀ v)
include hinv

theorem Core.write (hx : x.pc.regular = true) (hcv : x.hist.cv = none) (a : WordAddr) (w : Word)
    {l : List ReadLogEntry} (hl : ∀ r ∈ x.readSet, r ∈ l) :
    Goes all m₀ v t { x with
      pc := .body
      readOnly := false
      readSet := l
      writeSet := putBack a w x.writeSet
      hist := { x.hist with trace := .write a w :: x.hist.trace } } := by
  have hd := h.not_done hinv hcv
  have hm : Moves lockOf m₀ v t
      (v.setTx t { x.hist with trace := .write a w :: x.hist.trace }) := by
    rw [← h.hist] at hcv ⊢
    exact .inr (.write a w hcv)
  refine ⟨hm, { h.goto_regular (p := .body) hx rfl with
    hist := by simp
    endLe := fun ht => h.endLe (tracked_of_update x ht rfl)
    logged := fun _ r hr => ?_
    safe := fun ht _ => h.safe_own hinv hm hd (by simp [hd]) (tracked_of_update x ht rfl)
    kept := fun _ hd' => by simp [hd] at hd'
    writes := fun _ b => by simp [lastWrite_write, h.writes (aborting_of_regular hx)]
    nodup := nodup_putBack h.nodup
    readOnly := by simp
    update := fun _ _ => rfl
    heldWritten := fun ℓ hℓ => ?_
    mayHold := (h.goto_regular (p := .body) hx rfl).mayHold }, hcv⟩
  · obtain ⟨r', hr', heq⟩ := h.logged hd r hr
    exact ⟨r', hl r' hr', heq⟩
  · obtain ⟨u, hu, rfl⟩ := h.heldWritten ℓ hℓ
    have hkey : ((putBack a w x.writeSet).lookup u.1).isSome := by
      rw [lookup_putBack, lookup_of_mem h.nodup hu]
      split <;> rfl
    obtain ⟨u', hu', heq⟩ := List.lookup_isSome_iff.1 hkey
    exact ⟨u', hu', by rw [beq_iff_eq.1 heq]⟩

theorem Core.writeWordCtl (hpc : x.pc = .body) (hcv : x.hist.cv = none) (a : WordAddr) (w : Word) :
    Goes all m₀ v t (x.writeWordCtl a w) := by
  have hx : x.pc.regular = true := by rw [hpc]; rfl
  cases hw : x.writeSet.lookup a with
  | none =>
      rw [Tx.writeWordCtl, hw]
      exact TxInv.goes ⟨(h.goto_regular hx rfl).noteUpdate, hcv, rfl⟩
  | some u =>
      rw [Tx.writeWordCtl, hw]
      have hgoes := h.write hinv hx hcv a w (l := x.readSet) fun _ hr => hr
      rw [← hpc] at hgoes
      exact hgoes

theorem Core.writeCheckAgain (hx : x.pc.regular = true) (hcv : x.hist.cv = none)
    (hro : x.readOnly = false) (a : WordAddr) (w l l2 : Word) :
    Goes all m₀ v t (x.writeCheckAgain a w l l2) := by
  unfold Tx.writeCheckAgain
  split
  · exact TxInv.goes ⟨h.goto_regular hx rfl, hcv, hro⟩
  · split
    · exact TxInv.goes ⟨h.goto_regular hx rfl, hcv, hro⟩
    · have hgoes := h.write hinv hx hcv a w (l := x.readSet ++ [⟨a, versionOf l2, w⟩])
        fun _ hr => List.mem_append_left _ hr
      rw [← hro] at hgoes
      exact hgoes

end

end

section

variable (h : TxInv all m₀ v t x) (hinv : VersionLock.Inv lockOf m₀ v)
include h hinv

theorem TxInv.validateFalse {k : Validator} {rest : List ReadLogEntry}
    (hpc : x.pc = .validate k rest) : TxInv all m₀ v t (x.validateFalse k) := by
  have hx : x.pc.regular = true := by rw [hpc]; rfl
  have hhere := h.at hpc
  cases k with
  | extend last k => exact h.core.extendFalse hinv hx (by cases k <;> exact hhere.1)
  | writeWord a w => exact h.core.softSpin hinv hx hhere hhere.1
  | commit c => exact h.core.abortTx hx hhere.2.1

theorem TxInv.validateNext (hb : Backed m₀ σ v) {k : Validator} {r : ReadLogEntry}
    {rest : List ReadLogEntry} (hpc : x.pc = .validate k (r :: rest))
    (hr : r.stale t (σ.locks (lockOf r.addr)) = false) :
    TxInv all m₀ v t { x with pc := .validate k rest } := by
  have hx : x.pc.regular = true := by rw [hpc]; rfl
  have hhere := h.at hpc
  refine ⟨h.core.goto_regular hx rfl, ?_⟩
  cases k with
  | extend last k =>
      obtain ⟨hk, hle, hlast, hchecked⟩ := hhere
      refine ⟨hk, hle, hlast, ?_⟩
      refine hchecked.tail hinv ?_ hb hr
      rw [h.core.hist]
      exact hk.not_done hinv h.core.hist
  | writeWord a w => exact hhere
  | commit c =>
      obtain ⟨hcv, hd, hlocked, hchecked⟩ := hhere
      exact ⟨hcv, hd, hlocked, hchecked.tail hinv (by rw [h.core.hist]; exact hd) hb hr⟩

theorem TxInv.extended {last : ℕ} {k : Extender} (hpc : x.pc = .validate (.extend last k) []) :
    TxInv all m₀ v t (x.validateTrue (.extend last k)) := by
  obtain ⟨hk, hle, hlast, hchecked⟩ := h.at hpc
  have hd := hk.not_done hinv h.core.hist
  have hcore := h.core.extended hd hle hlast hchecked
  exact hcore.extendTrue hinv (by rw [hpc]; rfl) (by cases k <;> exact hk)

theorem TxInv.extendClock {k : Extender} (hpc : x.pc = .extendClock k) :
    TxInv all m₀ v t { x with pc := .validate (.extend v.clock k) x.readSet } := by
  have hk : k.Inv v t x := by
    have hhere := h.at hpc
    cases k <;> exact hhere
  have hd := hk.not_done hinv h.core.hist
  exact ⟨h.core.goto_regular (by rw [hpc]; rfl) rfl, by cases k <;> exact hk,
    h.core.ver_le hinv hd, le_rfl, fun r hr => .inl (h.core.logged hd r hr)⟩

end

theorem Core.commitStart (h : Core all m₀ v t x) (hx : x.pc.regular = true)
    (hcv : x.hist.cv = none) (clock : ℕ) : TxInv all m₀ v t (x.commitStart clock) := by
  unfold Tx.commitStart
  split
  · next hro =>
      exact ⟨h.goto_regular hx rfl, h.locksHeld_eq_nil (h.readOnly hro), .inl ⟨hro, hcv⟩⟩
  · next hro =>
      refine ⟨h.goto_regular hx rfl, hcv, by simpa using hro, fun w hw => .inl ?_, fun a ha => ?_⟩
      · exact (List.mem_insertionSort _).2 (List.mem_map_of_mem hw)
      · exact List.mem_map.1 ((List.mem_insertionSort _).1 ha)

section

variable (h : TxInv all m₀ v t x)
include h

theorem TxInv.acquireOwned {a : WordAddr} {rest : List WordAddr} (hpc : x.pc = .acquire (a :: rest))
    (hown : v.owner (lockOf a) = some t) : TxInv all m₀ v t { x with pc := .acquire rest } := by
  obtain ⟨hcv, hro, hlocked⟩ := h.at hpc
  refine ⟨h.core.goto_regular (by rw [hpc]; rfl) rfl, hcv, hro, fun w hw => ?_,
    fun b hb => hlocked.written b (List.mem_cons_of_mem a hb)⟩
  rcases hlocked.owned w hw with hrest | ho
  · rcases List.mem_cons.1 hrest with heq | hrest
    · exact .inr (heq ▸ hown)
    · exact .inl hrest
  · exact .inr ho

theorem TxInv.release (hb : Backed m₀ σ v) {c : ℕ} {w : WordAddr × Word}
    {rest : List (WordAddr × Word)} (hpc : x.pc = .release c (w :: rest)) :
    TxInv all m₀ v t (if isLockedBy (σ.locks (lockOf w.1)) t then
      { x with pc := .releaseVersion c w.1 rest } else { x with pc := .release c rest }) := by
  obtain ⟨hcv, hd⟩ := h.at hpc
  split
  · next hlocked =>
      rw [isLockedBy_iff, ← hb.owner] at hlocked
      refine ⟨h.core.goto (fun _ => by rw [hpc]; rfl) fun ℓ _ hℓ => ?_, hcv, hd, hlocked⟩
      rw [hpc] at hℓ
      exact (List.exists_mem_cons_iff _ _ _).1 hℓ
  · next hlocked =>
      rw [isLockedBy_iff, ← hb.owner] at hlocked
      refine ⟨h.core.goto (fun _ => by rw [hpc]; rfl) fun ℓ ho hℓ => ?_, hcv, hd⟩
      rw [hpc] at hℓ
      refine ((List.exists_mem_cons_iff _ _ _).1 hℓ).resolve_left fun heq => hlocked ?_
      rw [heq, ho]

/-- The lock to be released is older than the commit, so its version is stored. -/
theorem TxInv.releaseVersion (hinv : VersionLock.Inv lockOf m₀ v) {c : ℕ} {a : WordAddr}
    {rest : List (WordAddr × Word)} (hpc : x.pc = .releaseVersion c a rest) :
    v.ver (lockOf a) ≤ c ∧ TxInv all m₀ v t { x with pc := .releaseStore c a rest } := by
  obtain ⟨hcv, hd, ho⟩ := h.at hpc
  have hlt := hinv.ownLt t c _ (by rw [h.core.hist]; exact hcv) ho
  refine ⟨hlt.le, h.core.goto (fun _ => by rw [hpc]; rfl) fun ℓ _ hℓ => ?_, hcv, hd, ho⟩
  rw [hpc] at hℓ
  exact hℓ

theorem TxInv.releaseEnd {c : ℕ} (hpc : x.pc = .release c []) :
    TxInv all m₀ v t { x with pc := .commitToken c, locksHeld := [] } := by
  obtain ⟨-, hd⟩ := h.at hpc
  refine ⟨{ h.core with
    writes := fun _ => h.core.writes (by rw [hpc]; rfl)
    heldWritten := by simp
    mayHold := fun ℓ ho => ?_ }, rfl, .inr hd⟩
  have hℓ := h.core.mayHold ℓ ho
  rw [hpc] at hℓ
  simp [MayHold] at hℓ

theorem TxInv.abortClear (hpc : x.pc = .abortLocks []) : Goes all m₀ v t x.abortClear where
  moves := .inr (.abort (by rw [h.core.hist]; exact h.at hpc))
  tx :=
    { core :=
        { hist := by simp
          endLe := h.core.endLe
          logged := fun _ => by simp [Tx.abortClear]
          safe := fun _ _ => by simp [Tx.abortClear]
          kept := fun _ _ => by simp [Tx.abortClear]
          versionLt := by simp [Tx.abortClear]
          writes := fun _ a => by simp [Tx.abortClear]
          nodup := by simp [Tx.abortClear]
          readOnly := fun _ => rfl
          update := fun c => by simp [Tx.abortClear]
          heldWritten := by simp [Tx.abortClear]
          mayHold := fun ℓ ho => by
            have hℓ := h.core.mayHold ℓ ho
            rw [hpc] at hℓ
            simp [MayHold] at hℓ }
      here := rfl }

theorem TxInv.look (hinv : VersionLock.Inv lockOf m₀ v) (hb : Backed m₀ σ v) {c : TxCall} {x' : Tx}
    (hs : Tx.look t σ x c = some x') : Goes all m₀ v t x' := by
  have hcore := h.core
  unfold Tx.look at hs
  split at hs
  all_goals try obtain rfl := Option.some.inj hs
  case h_1 hpc =>
    exact (hcore.begin (by rw [hpc]; rfl) (h.at hpc)).goes
  case h_2 hpc =>
    split
    · exact (hcore.beginAt (by rw [hpc]; rfl) (h.at hpc) hb.clock.ge).goes
    · exact h.goes
  case h_3 a hpc =>
    exact hcore.readWordCtl hinv hpc (h.at hpc) a
  case h_4 a w hpc =>
    exact hcore.writeWordCtl hinv hpc (h.at hpc) a w
  case h_5 hpc =>
    have hcv := h.at hpc
    exact TxInv.goes ⟨hcore.goto_regular (by rw [hpc]; rfl) rfl, hcv⟩
  case h_6 hpc =>
    exact (hcore.abortTx (by rw [hpc]; rfl) (hcore.not_done hinv (h.at hpc))).goes
  case h_7 a spin hpc =>
    obtain ⟨hcv, ha⟩ := h.at hpc
    exact (hcore.readLoop hinv (by rw [hpc]; rfl) spin hcv ha (hb.ver _).ge).goes
  case h_8 a l spin hpc =>
    obtain ⟨hcv, ha, hfree, hle⟩ := h.at hpc
    exact TxInv.goes ⟨hcore.goto_regular (by rw [hpc]; rfl) rfl, hcv, ha, hfree,
      hle, fun _ hun => (hb.mem a hun).symm⟩
  case h_9 a l value spin hpc =>
    obtain ⟨hcv, ha, hfree, hseen⟩ := h.at hpc
    exact hcore.readCheck hinv hb (by rw [hpc]; rfl) hcv ha hfree hseen
  case h_10 a w hpc =>
    have hhere := h.at hpc
    unfold Tx.writeCheck
    split <;> exact TxInv.goes ⟨hcore.goto_regular (by rw [hpc]; rfl) rfl, hhere⟩
  case h_11 a w l hpc =>
    obtain ⟨hcv, hro⟩ := h.at hpc
    exact hcore.writeCheckAgain hinv (by rw [hpc]; rfl) hcv hro a w l _
  case h_12 k hpc =>
    split
    · rw [← hb.clock]
      exact (h.extendClock hinv hpc).goes
    · exact h.goes
  case h_13 k r rest hpc =>
    split
    · exact (h.validateFalse hinv hpc).goes
    · next hr => exact (h.validateNext hinv hb hpc (by simpa using hr)).goes
  case h_14 last k hpc =>
    exact (h.extended hinv hpc).goes
  case h_15 a w hpc =>
    have hhere := h.at hpc
    exact TxInv.goes ⟨hcore.goto_regular (by rw [hpc]; rfl) rfl, hhere⟩
  case h_16 hpc =>
    split
    · exact (hcore.commitStart (by rw [hpc]; rfl) (h.at hpc) _).goes
    · exact h.goes
  case h_17 a rest hpc =>
    split
    · next howner =>
        refine (h.acquireOwned hpc ?_).goes
        rw [hb.owner, (hb.wordOk _).lockOwner_of_ownerOf howner]
    · exact TxInv.goes ⟨hcore.goto_regular (by rw [hpc]; rfl) rfl, h.at hpc,
        TryLockPc.free_load⟩
  case h_18 hpc =>
    exact TxInv.goes ⟨hcore.goto_regular (by rw [hpc]; rfl) rfl, h.at hpc, .inl rfl⟩
  case h_19 c hpc =>
    obtain ⟨hcv, hd, -⟩ := h.at hpc
    refine TxInv.goes ⟨hcore.goto (fun _ => by rw [hpc]; rfl) fun ℓ _ hℓ =>
      hcore.heldWritten ℓ ?_, hcv, hd⟩
    rwa [hpc] at hℓ
  case h_20 c w rest hpc =>
    exact (h.release hb hpc).goes
  case h_21 c a rest hpc =>
    obtain ⟨hle, hgo⟩ := h.releaseVersion hinv hpc
    rw [hb.ver] at hle
    rw [if_neg (by omega)]
    exact hgo.goes
  case h_22 c hpc =>
    exact (h.releaseEnd hpc).goes
  case h_23 ℓ rest hpc =>
    refine TxInv.goes ⟨hcore.goto (by simp [Pc.aborting]) fun ℓ' _ hℓ => ?_, h.at hpc,
      UnlockPc.knows_check⟩
    rw [hpc] at hℓ
    exact List.mem_cons.1 hℓ
  case h_24 hpc =>
    exact h.abortClear hpc
  case h_25 => simp at hs

end

theorem hist_checkGap (c : ℕ) : (x.checkGap c).hist = x.hist := by
  unfold Tx.checkGap
  split <;> rfl

theorem Core.checkGap (h : Core all m₀ v t x) (hx : x.pc.regular = true) {c : ℕ}
    (hcv : x.hist.cv = some c) (hd : x.hist.done = false) (hlocked : Locked v t x.writeSet []) :
    TxInv all m₀ v t (x.checkGap c) := by
  unfold Tx.checkGap
  split
  · exact ⟨h.goto_regular hx rfl, hcv, hd, hlocked⟩
  · exact ⟨h.goto_regular hx rfl, hcv, hd, hlocked, fun r hr => .inl (h.logged hd r hr)⟩

/-- The thread's moves on locks and clock leave its history and snapshot alone. -/
theorem Core.own (h : Core all m₀ v t x) (hinv : VersionLock.Inv lockOf m₀ v)
    (hm : Moves lockOf m₀ v t v') (htx : v'.tx t = x.hist) {pc : Pc} {held : List LockIdx}
    (habort : pc.aborting = false → x.pc.aborting = false)
    (hheld : ∀ ℓ ∈ held, ∃ w ∈ x.writeSet, lockOf w.1 = ℓ)
    (hhold : ∀ ℓ, v'.owner ℓ = some t → MayHold pc held ℓ) :
    Core all m₀ v' t { x with pc := pc, locksHeld := held } :=
  { h with
    hist := htx
    endLe := fun ht => (h.endLe ht).trans hm.clock_le
    safe := fun ht hd => h.safe_own hinv hm hd (by rw [htx]; exact hd) ht
    kept := fun ht hd r hr =>
      hm.kept hinv (h.kept ht hd r hr) (by rw [htx, h.hist]) (h.endLe ht)
    writes := fun hpc => h.writes (habort hpc)
    heldWritten := hheld
    mayHold := hhold }

end Local

end TinySTM.Wbctl
