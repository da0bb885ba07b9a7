import ClangTM.TinySTM.Wbetl.Invariant

/-!
# The steps of WBETL that only look

One lemma for each function of a thread, in terms of the protocol state, and
`TxInv.look` for all steps that only load from the shared state.
-/

namespace TinySTM.Wbetl

open Serial VersionLock

section Local

variable {m₀ : WordAddr → Word} {v v' : Proto} {t : TxId} {σ : Shared} {x : Tx}

theorem TxInv.goes (h : TxInv m₀ v t x) : Goes m₀ v t x :=
  .of_knows h.core.hist h

theorem TxInv.at (h : TxInv m₀ v t x) {pc : Pc} (hpc : x.pc = pc) :
    PcInv m₀ v t { x with pc := pc } := by
  subst hpc
  exact h.here

section

variable (h : Core v t x)
include h

theorem Core.goto {pc : Pc} (hrel : pc.releasing = false → x.pc.releasing = false)
    (hhold : ∀ ℓ, v.owner ℓ = some t → MayHold x.pc x.locksHeld ℓ → MayHold pc x.locksHeld ℓ) :
    Core v t { x with pc := pc } :=
  { h with
    writes := fun hpc => h.writes (hrel hpc)
    held := fun hpc => h.held (hrel hpc)
    mayHold := fun ℓ ho => hhold ℓ ho (h.mayHold ℓ ho) }

theorem Core.goto_regular {p : Pc} (hx : x.pc.regular = true) (hp : p.regular = true) :
    Core v t { x with pc := p } :=
  h.goto (fun _ => releasing_of_regular hx) fun _ _ hℓ =>
    (mayHold_of_regular hp).2 ((mayHold_of_regular hx).1 hℓ)

theorem Core.mem_held (hx : x.pc.regular = true) {ℓ : LockIdx} (ho : v.owner ℓ = some t) :
    ℓ ∈ x.locksHeld :=
  (mayHold_of_regular hx).1 (h.mayHold ℓ ho)

theorem Core.known_own (hinv : VersionLock.Inv lockOf m₀ v) (hm : Moves lockOf m₀ v t v')
    (hd : x.hist.done = false) (hd' : (v'.tx t).done = false)
    (hown : ∀ ℓ, v.owner ℓ = some t → v'.owner ℓ = some t) :
    ∀ r ∈ x.hist.reads, Known v' t x.readSet x.endVersion r :=
  fun r hr => (h.known hd r hr).moves hm (fun _ => hd') (hown _) (h.ver_le hinv hd r hr) h.endLe

theorem Core.abortTx (hd : x.hist.done = false) (hown : ∀ ℓ, v.owner ℓ = some t → ℓ ∈ x.locksHeld) :
    Goes m₀ v t x.abortTx where
  moves := .inr (.abort (by rw [h.hist]; exact hd))
  tx :=
    { core :=
        { h with
          hist := by simp
          endLe := h.endLe
          known := fun _ => by simp [Tx.abortTx]
          versionLt := by simp [Tx.abortTx]
          writes := by simp [Tx.abortTx, Pc.releasing]
          update := by simp [Tx.abortTx]
          held := by simp [Tx.abortTx, Pc.releasing]
          mayHold := hown }
      here := rfl }

theorem Core.abort_regular (hx : x.pc.regular = true) (hd : x.hist.done = false) :
    Goes m₀ v t x.abortTx :=
  h.abortTx hd fun _ => h.mem_held hx

theorem Core.begin (hx : x.pc.regular = true) (hout : x.hist = {} ∧ x.locksHeld = []) :
    TxInv m₀ v t x.begin := by
  unfold Tx.begin
  split
  · exact ⟨h.goto_regular hx rfl, by simp [PcInv, hout.1]⟩
  · exact ⟨h.goto_regular hx rfl, hout⟩

theorem Core.beginAt (hx : x.pc.regular = true) (hout : x.hist = {} ∧ x.locksHeld = []) {clock : ℕ}
    (hclock : clock ≤ v.clock) : TxInv m₀ v t (x.beginAt clock) where
  core :=
    { h.goto_regular (p := .body) hx rfl with
      endLe := hclock
      known := fun _ => by simp [Tx.beginAt, hout.1]
      readOnly := fun _ => hout.2
      update := fun c => by simp [Tx.beginAt, hout.1] }
  here := by simp [Tx.beginAt, PcInv, hout.1]

section

variable (hinv : VersionLock.Inv lockOf m₀ v)
include hinv

theorem Core.softSpin (hx : x.pc.regular = true) (hw : Writing x) (k : Spinner) (a : WordAddr)
    (w : Word) : Goes m₀ v t (x.softSpin k a w) := by
  unfold Tx.softSpin
  split
  · exact h.abort_regular hx (h.not_done hinv hw.1)
  · exact TxInv.goes ⟨h.goto_regular hx rfl, hw⟩

theorem Core.tryLockFalse (hx : x.pc.regular = true) (hw : Writing x) (k : Attempt) (a : WordAddr)
    (w : Word) : Goes m₀ v t (x.tryLockFalse a w k) := by
  cases k with
  | afterSpin | unlockRace => exact h.abort_regular hx (h.not_done hinv hw.1)
  | first => exact TxInv.goes ⟨h.goto_regular hx rfl, hw⟩
  | second => exact h.softSpin hinv hx hw .lost a w

theorem Core.readLoop (hx : x.pc.regular = true) {a : WordAddr} {l : Word} (hr : Reading v x a l) :
    Goes m₀ v t (x.readLoop a l) := by
  unfold Tx.readLoop
  split
  · exact h.abort_regular hx (h.not_done hinv hr.1)
  · next hfree => exact TxInv.goes ⟨h.goto_regular hx rfl, hr, by simpa using hfree⟩

theorem Core.readWordEtl (hpc : x.pc = .body) (hcv : x.hist.cv = none) (a : WordAddr) :
    Goes m₀ v t (x.readWordEtl a) := by
  have hd := h.not_done hinv hcv
  cases hw : x.writeSet.lookup a with
  | none =>
      rw [Tx.readWordEtl, hw]
      exact TxInv.goes ⟨h.goto_regular (by rw [hpc]; rfl) rfl, hcv, hw⟩
  | some w =>
      rw [Tx.readWordEtl, hw]
      have hm : Moves lockOf m₀ v t
          (v.setTx t { x.hist with trace := .read a w :: x.hist.trace }) := by
        rw [← h.hist] at hcv ⊢
        exact .inr (.readOwn a w hcv (by rw [h.hist, h.writes (by rw [hpc]; rfl), hw]))
      refine ⟨hm, { h with
        hist := by simp
        endLe := h.endLe
        known := fun _ => h.known_own hinv hm hd (by simp [hd]) fun _ => id
        held := h.held
        mayHold := h.mayHold }, ?_⟩
      simp only [PcInv, hpc]
      exact hcv

theorem Core.read (hx : x.pc.regular = true) (hcv : x.hist.cv = none) {a : WordAddr}
    (ha : x.writeSet.lookup a = none) (hown : ∀ u, v.owner (lockOf a) = some u → u = t)
    {l : List ReadLogEntry}
    (hl : ∀ r ∈ x.hist.reads, Known v t x.readSet x.endVersion r → Known v t l x.endVersion r)
    (hnew : Known v t l x.endVersion ⟨a, v.ver (lockOf a), v.mem m₀ v.clock a⟩) :
    Goes m₀ v t { x with
      pc := .body
      readSet := l
      hist := { x.hist with
        reads := ⟨a, v.ver (lockOf a), v.mem m₀ v.clock a⟩ :: x.hist.reads
        trace := .read a (v.mem m₀ v.clock a) :: x.hist.trace } } := by
  have hd := h.not_done hinv hcv
  have hm : Moves lockOf m₀ v t (v.setTx t { x.hist with
      reads := ⟨a, v.ver (lockOf a), v.mem m₀ v.clock a⟩ :: x.hist.reads
      trace := .read a (v.mem m₀ v.clock a) :: x.hist.trace }) := by
    have hstep : VersionLock.Step lockOf m₀ v t _ := .read a
      (by rw [h.hist, hcv]) hown (by rw [h.hist, h.writes (releasing_of_regular hx), ha])
    rw [h.hist] at hstep
    exact .inr hstep
  have hgoto := h.goto_regular (p := .body) hx rfl
  refine ⟨hm, { hgoto with
    hist := by simp
    endLe := h.endLe
    known := fun _ r hr => ?_
    held := hgoto.held
    mayHold := hgoto.mayHold }, hcv⟩
  have hle : r.ver ≤ v.clock := by
    rcases List.mem_cons.1 hr with rfl | hr
    · exact hinv.verLe _
    · exact h.ver_le hinv hd r hr
  have hknown : Known v t l x.endVersion r := by
    rcases List.mem_cons.1 hr with rfl | hr
    · exact hnew
    · exact hl r hr (h.known hd r hr)
  exact hknown.moves hm (fun _ => by simp [hd]) id hle h.endLe

/-- A read under the transaction's own lock, which leaves the read set alone. -/
theorem Core.readHeld (hb : Backed m₀ σ v) (hx : x.pc.regular = true) (hcv : x.hist.cv = none)
    {a : WordAddr} (ha : x.writeSet.lookup a = none) (hown : v.owner (lockOf a) = some t) :
    Goes m₀ v t (x.readHeld a (σ.locks (lockOf a)) (σ.mem a)) := by
  have hself : ∀ u, v.owner (lockOf a) = some u → u = t :=
    fun u hu => Option.some.inj (hu.symm.trans hown)
  have hval : σ.mem a = v.mem m₀ v.clock a := hb.mem a fun u hu => by
    rw [hself u hu, h.hist]
    exact h.not_done hinv hcv
  have hgoes := h.read hinv hx hcv ha hself (fun _ _ hr => hr) (.inr ⟨hown, le_rfl⟩)
  rw [← hval, hb.ver] at hgoes
  exact hgoes

end

end

theorem mem_mergeRead_self (e : ReadLogEntry) (rs : List ReadLogEntry) : e ∈ mergeRead e rs := by
  induction rs with
  | nil => simp [mergeRead]
  | cons r rs ih =>
      rw [mergeRead]
      split
      · exact List.mem_cons_self
      · exact List.mem_cons_of_mem r ih

theorem mem_mergeRead {e r : ReadLogEntry} {rs : List ReadLogEntry} (h : r ∈ rs)
    (hne : r.addr ≠ e.addr) : r ∈ mergeRead e rs := by
  induction rs with
  | nil => simp at h
  | cons r' rs ih =>
      rw [mergeRead]
      split
      · next heq =>
          rcases List.mem_cons.1 h with rfl | h
          · exact absurd heq hne
          · exact List.mem_cons_of_mem e h
      · rcases List.mem_cons.1 h with rfl | h
        · exact List.mem_cons_self
        · exact List.mem_cons_of_mem r' (ih h)

/-- A read that is valid up to `e` has the version that its lock has now, if that is
not above `e`: when `merge_read` replaces an entry, it replaces it by the same version. -/
theorem ver_eq_of_safe (hinv : VersionLock.Inv lockOf m₀ v) (hd : (v.tx t).done = false)
    {r : Entry WordAddr Word} (hr : r ∈ (v.tx t).reads) {e : ℕ} (hsafe : Safe lockOf v t r e)
    (he : v.ver (lockOf r.addr) ≤ e) : v.ver (lockOf r.addr) = r.ver := by
  have hge := (hinv.entry t hd r hr).1
  have hle := hsafe.version
  omega

section

variable (h : Core v t x) (hinv : VersionLock.Inv lockOf m₀ v)
include h hinv

variable {a : WordAddr}

/-- The end of `read_word_etl`: the two loads of the lock agree and are not newer
than the snapshot, so the value loaded between them is the committed one. -/
theorem Core.pushRead (hb : Backed m₀ σ v) (hx : x.pc.regular = true) {value : Word}
    (hr : Reading v x a (σ.locks (lockOf a))) (hfree : isOwned (σ.locks (lockOf a)) = false)
    (hseen : Seen lockOf m₀ v a (versionOf (σ.locks (lockOf a))) value)
    (hver : versionOf (σ.locks (lockOf a)) ≤ x.endVersion) :
    Goes m₀ v t (x.pushRead a (σ.locks (lockOf a)) value) := by
  have hd := h.not_done hinv hr.1
  have hown : v.owner (lockOf a) = none := by
    rw [hb.owner, lockOwner_eq_none hfree]
  have hval : v.mem m₀ v.clock a = value :=
    hseen.value (hb.ver _) fun u hu => by simp [hown] at hu
  have hself : ∀ u, v.owner (lockOf a) = some u → u = t := fun u hu => by simp [hown] at hu
  rw [← hb.ver] at hver
  have hgoes := h.read hinv hx hr.1 hr.2.1 hself
    (l := mergeRead ⟨a, v.ver (lockOf a), value⟩ x.readSet) (fun r hmem hknown => ?_)
    (.inl ⟨⟨_, mem_mergeRead_self _ _, rfl, rfl⟩, hver,
      hinv.safe_of_check (by rw [h.hist]; exact hd) hself le_rfl _⟩)
  · rw [hval, hb.ver] at hgoes
    exact hgoes
  · refine hknown.imp_left fun ⟨⟨r', hr', haddr, hv⟩, hle, hsafe⟩ => ⟨?_, hle, hsafe⟩
    by_cases heq : r'.addr = a
    · refine ⟨_, mem_mergeRead_self _ _, heq.symm.trans haddr, ?_⟩
      obtain rfl : r.addr = a := haddr.symm.trans heq
      exact ver_eq_of_safe hinv (by rw [h.hist]; exact hd) (by rw [h.hist]; exact hmem) hsafe hver
    · exact ⟨r', mem_mergeRead hr' heq, haddr, hv⟩

theorem Core.readCheck (hb : Backed m₀ σ v) (hx : x.pc.regular = true) {l value : Word}
    (hr : Reading v x a l) (hfree : isOwned l = false)
    (hseen : Seen lockOf m₀ v a (versionOf l) value) :
    Goes m₀ v t (x.readCheck a l (σ.locks (lockOf a)) value) := by
  unfold Tx.readCheck
  split
  · exact h.readLoop hinv hx ⟨hr.1, hr.2.1, (hb.ver _).ge⟩
  · next heq =>
      obtain rfl := not_not.1 heq
      split
      · exact TxInv.goes ⟨h.goto_regular hx rfl, hr⟩
      · next hver => exact h.pushRead hinv hb hx hr hfree hseen (by omega)

theorem Core.write (hrel : x.pc.releasing = false) (hcv : x.hist.cv = none) {w : Word}
    {held : List LockIdx} (hnodup : held.Nodup) (hheld : ∀ ℓ, v.owner ℓ = some t ↔ ℓ ∈ held)
    (ha : lockOf a ∈ held) :
    Goes m₀ v t { x with
      pc := .body
      readOnly := false
      writeSet := putBack a w x.writeSet
      locksHeld := held
      hist := { x.hist with trace := .write a w :: x.hist.trace } } := by
  have hd := h.not_done hinv hcv
  have hm : Moves lockOf m₀ v t
      (v.setTx t { x.hist with trace := .write a w :: x.hist.trace }) := by
    rw [← h.hist] at hcv ⊢
    exact .inr (.write a w hcv)
  refine ⟨hm, { h with
    hist := by simp
    endLe := h.endLe
    known := fun _ => h.known_own hinv hm hd (by simp [hd]) fun _ => id
    writes := fun _ b => by simp [lastWrite_write, h.writes hrel]
    nodup := nodup_putBack h.nodup
    nodupHeld := hnodup
    readOnly := by simp
    update := fun _ _ => rfl
    held := fun _ ℓ hℓ => (hheld ℓ).2 hℓ
    written := fun u hu => ?_
    mayHold := fun ℓ ho => (hheld ℓ).1 ho }, hcv⟩
  have hkey : ((putBack a w x.writeSet).lookup u.1).isSome :=
    List.lookup_isSome_iff.2 ⟨u, hu, by simp⟩
  rw [lookup_putBack] at hkey
  split at hkey
  · next heq => rwa [heq]
  · obtain ⟨u', hu', heq⟩ := List.lookup_isSome_iff.1 hkey
    rw [beq_iff_eq.1 heq]
    exact (hheld _).1 (h.held hrel _ (h.written u' hu'))

theorem Core.writeWordEtl (hpc : x.pc = .body) (hcv : x.hist.cv = none) (a : WordAddr) (w : Word) :
    Goes m₀ v t (x.writeWordEtl a w) := by
  have hx : x.pc.regular = true := by rw [hpc]; rfl
  cases hw : x.writeSet.lookup a with
  | none =>
      rw [Tx.writeWordEtl, hw]
      refine TxInv.goes ⟨{ h.goto_regular (p := .writeLocked a w) hx rfl with
        readOnly := by simp
        update := fun _ _ => rfl }, hcv, rfl⟩
  | some u =>
      rw [Tx.writeWordEtl, hw]
      have hgoes := h.write hinv (releasing_of_regular hx) hcv (w := w) h.nodupHeld
        (fun ℓ => ⟨h.mem_held hx, h.held (releasing_of_regular hx) ℓ⟩)
        (h.written (a, u) (mem_of_lookup hw))
      rw [← hpc] at hgoes
      exact hgoes

theorem Core.pushWrite {w : Word} (hpc : x.pc = .writeOwned a w) (hw : Writing x)
    (hown : v.owner (lockOf a) = some t) : Goes m₀ v t (x.pushWrite a w) := by
  have hrel : x.pc.releasing = false := by rw [hpc]; rfl
  have hmay : ∀ ℓ, v.owner ℓ = some t → ℓ = lockOf a ∨ ℓ ∈ x.locksHeld := fun ℓ ho => by
    have hℓ := h.mayHold ℓ ho
    rwa [hpc] at hℓ
  have hgoes : ∀ held : List LockIdx, held.Nodup → (∀ ℓ, v.owner ℓ = some t ↔ ℓ ∈ held) →
      lockOf a ∈ held → Goes m₀ v t { x with
        pc := .body
        writeSet := putBack a w x.writeSet
        locksHeld := held
        hist := { x.hist with trace := .write a w :: x.hist.trace } } := by
    intro held hnodup hheld ha
    have hgoes := h.write hinv hrel hw.1 (w := w) hnodup hheld ha
    rw [← hw.2] at hgoes
    exact hgoes
  unfold Tx.pushWrite
  split
  · next ha =>
      refine hgoes _ h.nodupHeld (fun ℓ => ⟨fun ho => ?_, h.held hrel ℓ⟩) ha
      rcases hmay ℓ ho with rfl | hℓ
      · exact ha
      · exact hℓ
  · next ha =>
      have hnodup : (x.locksHeld ++ [lockOf a]).Nodup := by
        refine List.nodup_append.2 ⟨h.nodupHeld, by simp, fun ℓ hℓ ℓ' hℓ' heq => ha ?_⟩
        rwa [← List.mem_singleton.1 hℓ', ← heq]
      refine hgoes _ hnodup (fun ℓ => ?_) (by simp)
      rw [List.mem_append, List.mem_singleton]
      refine ⟨fun ho => (hmay ℓ ho).symm, ?_⟩
      rintro (hℓ | rfl)
      · exact h.held hrel ℓ hℓ
      · exact hown

theorem Core.writeOwned (hb : Backed m₀ σ v) {w : Word} (hpc : x.pc = .writeOwned a w)
    (hw : Writing x) :
    Goes m₀ v t (if isLockedBy (σ.locks (lockOf a)) t then x.pushWrite a w else x.abortTx) := by
  split
  · next hown =>
      rw [isLockedBy_iff, ← hb.owner] at hown
      exact h.pushWrite hinv hpc hw hown
  · next hown =>
      rw [isLockedBy_iff, ← hb.owner] at hown
      refine h.abortTx (h.not_done hinv hw.1) fun ℓ ho => ?_
      have hℓ := h.mayHold ℓ ho
      rw [hpc] at hℓ
      refine hℓ.resolve_left ?_
      rintro rfl
      exact hown ho

end

theorem TxInv.validateNext (h : TxInv m₀ v t x) (hinv : VersionLock.Inv lockOf m₀ v)
    (hb : Backed m₀ σ v) {k : Validator} {r : ReadLogEntry} {rest : List ReadLogEntry}
    (hpc : x.pc = .validate k (r :: rest)) :
    Goes m₀ v t (if r.stale t (σ.locks (lockOf r.addr)) then x.abortTx
      else { x with pc := .validate k rest }) := by
  have hx : x.pc.regular = true := by rw [hpc]; rfl
  have hhere := h.at hpc
  have hd : x.hist.done = false := by
    rcases k with ⟨last, ⟨a, l⟩ | c⟩ | ⟨a, w⟩
    · exact h.core.not_done hinv hhere.1.1
    · exact hhere.2.1
    · exact h.core.not_done hinv hhere.1
  split
  · exact h.core.abort_regular hx hd
  · next hr =>
      have htail : ∀ {e : ℕ}, Checked v t x.hist.reads (r :: rest) e →
          Checked v t x.hist.reads rest e := fun hc =>
        hc.tail hinv (by rw [h.core.hist]; exact hd) hb (by simpa using hr)
      refine TxInv.goes ⟨h.core.goto_regular hx rfl, ?_⟩
      rcases k with ⟨last, ⟨a, l⟩ | c⟩ | ⟨a, w⟩
      · exact ⟨hhere.1, hhere.2.1, hhere.2.2.1, htail hhere.2.2.2⟩
      · exact ⟨hhere.1, hhere.2.1, hhere.2.2.1, htail hhere.2.2.2⟩
      · exact hhere

theorem TxInv.extended (h : TxInv m₀ v t x) (hinv : VersionLock.Inv lockOf m₀ v) {last : ℕ}
    {a : WordAddr} {l : Word} (hpc : x.pc = .validate (.extend last (.readWord a l)) []) :
    Goes m₀ v t (x.validateTrue (.extend last (.readWord a l))) := by
  obtain ⟨hread, hle, hlast, hchecked⟩ := h.at hpc
  have hcore : Core v t { x with endVersion := last } :=
    { h.core with
      endLe := hlast
      known := fun hd r hr => (h.core.known hd r hr).imp_left fun hlog =>
        ⟨hlog.1, hle r hr, hchecked.safe hr⟩ }
  exact hcore.readLoop hinv (by rw [hpc]; rfl) hread

theorem TxInv.extendClock (h : TxInv m₀ v t x) (hinv : VersionLock.Inv lockOf m₀ v)
    {k : Extender} (hpc : x.pc = .extendClock k) :
    TxInv m₀ v t { x with pc := .validate (.extend v.clock k) x.readSet } := by
  have hhere := h.at hpc
  have hd : x.hist.done = false := by
    cases k with
    | readWord a l => exact h.core.not_done hinv hhere.1
    | commit c => exact hhere.2
  have hchecked : ∀ e, Checked v t x.hist.reads x.readSet e := fun e r hr =>
    (h.core.known hd r hr).checked hinv (by rw [h.core.hist]; exact hd) e
  refine ⟨h.core.goto_regular (by rw [hpc]; rfl) rfl, ?_⟩
  cases k with
  | readWord a l => exact ⟨hhere, h.core.ver_le hinv hd, le_rfl, hchecked _⟩
  | commit c => exact ⟨hhere.1, hhere.2, le_rfl, hchecked _⟩

theorem Core.commit (h : Core v t x) (hx : x.pc.regular = true) (hcv : x.hist.cv = none) :
    TxInv m₀ v t x.commit := by
  unfold Tx.commit
  split
  · next hro =>
      have hnil := h.readOnly hro
      refine ⟨h.goto (by simp [Pc.releasing]) fun ℓ ho _ => ?_, .inl ⟨hro, hcv, fun a => ?_⟩⟩
      · have hℓ := h.mem_held hx ho
        simp [hnil] at hℓ
      · rw [h.writes (releasing_of_regular hx)]
        cases hw : x.writeSet.lookup a with
        | none => rfl
        | some w =>
            have hℓ := h.written (a, w) (mem_of_lookup hw)
            simp [hnil] at hℓ
  · next hro => exact ⟨h.goto_regular hx rfl, ⟨hcv, by simpa using hro⟩, rfl⟩

theorem TxInv.abortClear (h : TxInv m₀ v t x) (hpc : x.pc = .abortLocks []) :
    TxInv m₀ v t x.abortClear := by
  have hhist : x.hist = {} := h.at hpc
  refine ⟨{ h.core with
    known := fun _ => by simp [Tx.abortClear, hhist]
    writes := fun _ a => by simp [Tx.abortClear, hhist]
    nodup := List.nodup_nil
    nodupHeld := List.nodup_nil
    readOnly := fun _ => rfl
    held := by simp [Tx.abortClear]
    written := by simp [Tx.abortClear]
    mayHold := fun ℓ ho => ?_ }, hhist, rfl⟩
  have hℓ := h.core.mayHold ℓ ho
  rw [hpc] at hℓ
  simp [MayHold] at hℓ

theorem TxInv.move (h : TxInv m₀ v t x) {p q : Pc} (hpc : x.pc = p) (hp : p.regular = true)
    (hq : q.regular = true) (hhere : PcInv m₀ v t { x with pc := q }) :
    Goes m₀ v t { x with pc := q } :=
  TxInv.goes ⟨h.core.goto_regular (hpc ▸ hp) hq, hhere⟩

theorem TxInv.look (h : TxInv m₀ v t x) (hinv : VersionLock.Inv lockOf m₀ v)
    (hb : Backed m₀ σ v) {c : TxCall} {x' : Tx} (hs : Tx.look t σ x c = some x') :
    Goes m₀ v t x' := by
  have hcore := h.core
  unfold Tx.look at hs
  split at hs
  all_goals try obtain rfl := Option.some.inj hs
  case h_1 hpc =>
    exact (hcore.begin (by rw [hpc]; rfl) (h.at hpc)).goes
  case h_2 hpc =>
    split
    · exact (hcore.beginAt (by rw [hpc]; rfl) (h.at hpc) hb.clock.ge).goes
    · exact h.goes
  case h_3 a hpc =>
    exact hcore.readWordEtl hinv hpc (h.at hpc) a
  case h_4 a w hpc =>
    exact hcore.writeWordEtl hinv hpc (h.at hpc) a w
  case h_5 hpc =>
    exact (hcore.commit (by rw [hpc]; rfl) (h.at hpc)).goes
  case h_6 hpc =>
    exact hcore.abort_regular (by rw [hpc]; rfl) (hcore.not_done hinv (h.at hpc))
  case h_7 a hpc =>
    obtain ⟨hcv, ha⟩ := h.at hpc
    split
    · next hown =>
        rw [isLockedBy_iff, ← hb.owner] at hown
        exact h.move hpc rfl rfl ⟨hcv, ha, hown⟩
    · exact h.move hpc rfl rfl ⟨hcv, ha⟩
  case h_8 a hpc =>
    obtain ⟨hcv, ha, hown⟩ := h.at hpc
    exact hcore.readHeld hinv hb (by rw [hpc]; rfl) hcv ha hown
  case h_9 a hpc =>
    obtain ⟨hcv, ha⟩ := h.at hpc
    exact hcore.readLoop hinv (by rw [hpc]; rfl) ⟨hcv, ha, (hb.ver _).ge⟩
  case h_10 a l hpc =>
    obtain ⟨hread, hfree⟩ := h.at hpc
    exact h.move hpc rfl rfl ⟨hread, hfree, hread.2.2, fun _ hun => (hb.mem a hun).symm⟩
  case h_11 a l value hpc =>
    obtain ⟨hread, hfree, hseen⟩ := h.at hpc
    exact hcore.readCheck hinv hb (by rw [hpc]; rfl) hread hfree hseen
  case h_12 a w hpc =>
    have hw := h.at hpc
    split
    · exact h.move hpc rfl rfl hw
    · exact h.move hpc rfl rfl ⟨hw, TryLockPc.free_load⟩
  case h_13 a w hpc =>
    have hw := h.at hpc
    split
    · exact hcore.softSpin hinv (by rw [hpc]; rfl) hw .held a w
    · exact TxInv.goes ⟨hcore.goto (fun _ => by rw [hpc]; rfl) fun ℓ ho _ =>
        .inr (hcore.mem_held (by rw [hpc]; rfl) ho), hw⟩
  case h_14 a w hpc =>
    have hw := h.at hpc
    split <;> exact h.move hpc rfl rfl hw
  case h_15 a w hpc =>
    have hw := h.at hpc
    split <;> exact h.move hpc rfl rfl hw
  case h_16 a w hpc =>
    have hw := h.at hpc
    split
    · exact h.move hpc rfl rfl ⟨hw, TryLockPc.free_load⟩
    · exact TxInv.goes ⟨hcore.goto (fun _ => by rw [hpc]; rfl) fun ℓ ho _ =>
        .inr (hcore.mem_held (by rw [hpc]; rfl) ho), hw⟩
  case h_17 a w hpc =>
    have hw := h.at hpc
    split
    · exact h.goes
    · exact h.move hpc rfl rfl ⟨hw, TryLockPc.free_load⟩
  case h_18 a w hpc =>
    exact hcore.writeOwned hinv hb hpc (h.at hpc)
  case h_19 k hpc =>
    split
    · rw [← hb.clock]
      exact (h.extendClock hinv hpc).goes
    · exact h.goes
  case h_20 k r rest hpc =>
    exact h.validateNext hinv hb hpc
  case h_21 last a l hpc =>
    exact h.extended hinv hpc
  case h_22 a w hpc =>
    have hw := h.at hpc
    exact h.move hpc rfl rfl ⟨hw, TryLockPc.free_load⟩
  case h_23 c i hpc =>
    obtain ⟨hcv, hd, -⟩ := h.at hpc
    refine TxInv.goes ⟨hcore.goto (by simp [Pc.releasing]) fun ℓ ho _ => ?_, hcv, hd,
      hcore.nodupHeld, hcore.held (by rw [hpc]; rfl)⟩
    exact hcore.mem_held (by rw [hpc]; rfl) ho
  case h_24 c hpc =>
    obtain ⟨-, hd, -⟩ := h.at hpc
    refine TxInv.goes ⟨hcore.goto (by simp [Pc.releasing]) fun ℓ _ hℓ => ?_, .inr hd⟩
    rw [hpc] at hℓ
    simp [MayHold] at hℓ
  case h_25 ℓ rest hpc =>
    refine TxInv.goes ⟨hcore.goto (by simp [Pc.releasing]) fun ℓ' _ hℓ => ?_, h.at hpc,
      UnlockPc.knows_check⟩
    rw [hpc] at hℓ
    exact List.mem_cons.1 hℓ
  case h_26 hpc =>
    exact (h.abortClear hpc).goes
  case h_27 => simp at hs

end Local

end TinySTM.Wbetl
