import ClangTM.TinySTM.Wbctl.Basic
import ClangTM.TinySTM.Routines

/-!
# The invariant of WBCTL

What a thread knows is said in terms of the protocol state: `Core` is what it knows
at every point of a transaction, `PcInv` what it knows in the middle of a function.
All of it is stable under the moves of the other threads (`TxInv.moves`), so a step
has to be looked at for the thread that makes it only. Memory differs from the
committed memory only at words that a committed transaction has still to write back,
and holds the locks of.

After a reset of the clock, a transaction that was aborted by it goes on with an
`end_version` above the clock. The parameter `all` says whether that is excluded; if
not, only the snapshots of read-only transactions are known to be consistent.
-/

namespace TinySTM.Wbctl

open Serial VersionLock

/-- The locks a thread can own at a program counter. While it releases or unlocks
them the list at the program counter counts, and otherwise `locks_held`. -/
def MayHold (pc : Pc) (held : List LockIdx) (ℓ : LockIdx) : Prop :=
  match pc with
  | .release _ rest => ∃ w ∈ rest, lockOf w.1 = ℓ
  | .releaseVersion _ a rest | .releaseUnlock _ a rest _ | .releaseStore _ a rest =>
      lockOf a = ℓ ∨ ∃ w ∈ rest, lockOf w.1 = ℓ
  | .abortLocks rest => ℓ ∈ rest
  | .abortUnlock ℓ' rest _ => ℓ = ℓ' ∨ ℓ ∈ rest
  | _ => ℓ ∈ held

namespace Pc

/-- The program counters at which `locks_held` is the list of the locks owned. -/
def regular : Pc → Bool
  | .release .. | .releaseVersion .. | .releaseUnlock .. | .releaseStore .. | .abortLocks ..
  | .abortUnlock .. => false
  | _ => true

def aborting : Pc → Bool
  | .abortLocks .. | .abortUnlock .. => true
  | _ => false

end Pc

theorem mayHold_of_regular {pc : Pc} (h : pc.regular = true) {held : List LockIdx}
    {ℓ : LockIdx} : MayHold pc held ℓ ↔ ℓ ∈ held := by
  cases pc <;> first | rfl | simp [Pc.regular] at h

/-- Of the write set `ws`, the words of `rest` are still to be locked. -/
structure Locked (v : Proto) (t : TxId) (ws : List (WordAddr × Word)) (rest : List WordAddr) :
    Prop where
  owned : ∀ w ∈ ws, w.1 ∈ rest ∨ v.owner (lockOf w.1) = some t
  written : ∀ a ∈ rest, ∃ w ∈ ws, w.1 = a

/-- The transactions whose snapshot is known to be consistent. -/
def Tx.tracked (all : Bool) (x : Tx) : Bool := all || x.readOnly

/-- What a thread knows at every point of a transaction. -/
structure Core (all : Bool) (m₀ : WordAddr → Word) (v : Proto) (t : TxId) (x : Tx) :
    Prop where
  hist : v.tx t = x.hist
  endLe : x.tracked all = true → x.endVersion ≤ v.clock
  logged : x.hist.done = false → ∀ r ∈ x.hist.reads,
    ∃ r' ∈ x.readSet, r'.addr = r.addr ∧ r'.observedVersion = r.ver
  safe : x.tracked all = true → x.hist.done = false → ∀ r ∈ x.hist.reads,
    r.ver ≤ x.endVersion ∧ Safe lockOf v t r x.endVersion
  kept : x.tracked all = true → x.hist.done = true → ∀ r ∈ x.hist.reads,
    Kept lockOf m₀ v t r x.endVersion
  versionLt : ∀ c, x.hist.cv = some c → c < versionMax
  writes : x.pc.aborting = false → ∀ a, lastWrite x.hist.trace a = x.writeSet.lookup a
  nodup : (x.writeSet.map Prod.fst).Nodup
  readOnly : x.readOnly = true → x.writeSet = []
  update : ∀ c, x.hist.cv = some c → x.readOnly = false
  heldWritten : ∀ ℓ ∈ x.locksHeld, ∃ w ∈ x.writeSet, lockOf w.1 = ℓ
  mayHold : ∀ ℓ, v.owner ℓ = some t → MayHold x.pc x.locksHeld ℓ

/-- What `commit` of an update transaction knows before it takes its commit version,
while the words of `rest` are still to be locked. -/
def Acquiring (v : Proto) (t : TxId) (x : Tx) (rest : List WordAddr) : Prop :=
  x.hist.cv = none ∧ x.readOnly = false ∧ Locked v t x.writeSet rest

def Extender.Inv (v : Proto) (t : TxId) (x : Tx) : Extender → Prop
  | .readWord a l _ =>
      x.hist.cv = none ∧ x.writeSet.lookup a = none ∧ versionOf l ≤ v.ver (lockOf a)
  | .writeWord _ _ => x.hist.cv = none ∧ x.readOnly = false
  | .commitLock a rest _ => Acquiring v t x (a :: rest)
  | .gapCheck version =>
      x.hist.cv = some version ∧ x.hist.done = false ∧ Locked v t x.writeSet []

def Spinner.Inv (v : Proto) (t : TxId) (x : Tx) : Spinner → Prop
  | .readWord a l _ =>
      x.hist.cv = none ∧ x.writeSet.lookup a = none ∧ versionOf l ≤ v.ver (lockOf a)
  | .writeWord _ _ => x.hist.cv = none ∧ x.readOnly = false
  | .commitLock a rest _ => Acquiring v t x (a :: rest)

def PcInv (m₀ : WordAddr → Word) (v : Proto) (t : TxId) (x : Tx) : Prop :=
  match x.pc with
  | .out | .beginClock | .abortToken => x.hist = {}
  | .body | .commitClock => x.hist.cv = none
  | .writeLock _ _ | .writeLockAgain _ _ _ | .validate (.writeWord _ _) _ =>
      x.hist.cv = none ∧ x.readOnly = false
  | .readLock a _ => x.hist.cv = none ∧ x.writeSet.lookup a = none
  | .readValue a l _ =>
      x.hist.cv = none ∧ x.writeSet.lookup a = none ∧ isOwned l = false ∧
        versionOf l ≤ v.ver (lockOf a)
  | .readLockAgain a l value _ =>
      x.hist.cv = none ∧ x.writeSet.lookup a = none ∧ isOwned l = false ∧
        Seen lockOf m₀ v a (versionOf l) value
  | .extendClock k => k.Inv v t x
  | .validate (.extend lastVersion k) rest =>
      k.Inv v t x ∧ (∀ r ∈ x.hist.reads, r.ver ≤ lastVersion) ∧ lastVersion ≤ v.clock ∧
        Checked v t x.hist.reads rest lastVersion
  | .validate (.commit version) rest =>
      x.hist.cv = some version ∧ x.hist.done = false ∧ Locked v t x.writeSet [] ∧
        Checked v t x.hist.reads rest (version - 1)
  | .token k _ => k.Inv v t x
  | .acquire rest => Acquiring v t x rest
  | .acquireTry a rest _ p => Acquiring v t x (a :: rest) ∧ p.Free
  | .increment p => Acquiring v t x [] ∧ (p = .add ∨ p = .cas ∧ versionMax ≤ v.clock)
  | .writeBack version rest =>
      x.hist.cv = some version ∧ x.hist.done = true ∧ Locked v t x.writeSet [] ∧
        ∀ w ∈ rest, w ∈ x.writeSet ∧ v.mem m₀ v.clock w.1 = w.2
  | .release version _ => x.hist.cv = some version ∧ x.hist.done = true
  | .releaseVersion version a _ | .releaseStore version a _ =>
      x.hist.cv = some version ∧ x.hist.done = true ∧ v.owner (lockOf a) = some t
  | .releaseUnlock .. => False
  | .commitToken _ =>
      x.locksHeld = [] ∧ (x.readOnly = true ∧ x.hist.cv = none ∨ x.hist.done = true)
  | .abortLocks _ => x.hist.done = false
  | .abortUnlock ℓ _ p => x.hist.done = false ∧ p.Knows v t ℓ

structure TxInv (all : Bool) (m₀ : WordAddr → Word) (v : Proto) (t : TxId) (x : Tx) :
    Prop where
  core : Core all m₀ v t x
  here : PcInv m₀ v t x

section Stable

variable {all : Bool} {m₀ : WordAddr → Word} {v v' : Proto} {t u : TxId} {x : Tx}

theorem Locked.moves {ws : List (WordAddr × Word)} {rest : List WordAddr}
    (h : Locked v t ws rest) (hm : Moves lockOf m₀ v u v') (hne : t ≠ u) :
    Locked v' t ws rest where
  owned w hw := (h.owned w hw).imp_right fun ho => (hm.owner_iff hne _).2 ho
  written := h.written

theorem Acquiring.moves {rest : List WordAddr} (h : Acquiring v t x rest)
    (hm : Moves lockOf m₀ v u v') (hne : t ≠ u) : Acquiring v' t x rest :=
  ⟨h.1, h.2.1, h.2.2.moves hm hne⟩

theorem Extender.Inv.moves {k : Extender} (h : k.Inv v t x)
    (hinv : VersionLock.Inv lockOf m₀ v) (hm : Moves lockOf m₀ v u v') (hne : t ≠ u) :
    k.Inv v' t x := by
  cases k with
  | readWord a l spin => exact ⟨h.1, h.2.1, h.2.2.trans (hm.ver_le hinv _)⟩
  | writeWord a v => exact h
  | commitLock a rest n => exact Acquiring.moves h hm hne
  | gapCheck c => exact ⟨h.1, h.2.1, h.2.2.moves hm hne⟩

theorem Spinner.Inv.moves {k : Spinner} (h : k.Inv v t x)
    (hinv : VersionLock.Inv lockOf m₀ v) (hm : Moves lockOf m₀ v u v') (hne : t ≠ u) :
    k.Inv v' t x := by
  cases k with
  | readWord a l spin => exact ⟨h.1, h.2.1, h.2.2.trans (hm.ver_le hinv _)⟩
  | writeWord a v => exact h
  | commitLock a rest n => exact Acquiring.moves h hm hne

theorem Extender.Inv.not_done {k : Extender} (h : k.Inv v t x)
    (hinv : VersionLock.Inv lockOf m₀ v) (hist : v.tx t = x.hist) : x.hist.done = false := by
  have hcv : x.hist.cv = none → x.hist.done = false := fun hcv => by
    rw [← hist] at hcv ⊢
    exact hinv.not_done hcv
  cases k with
  | readWord a l spin => exact hcv h.1
  | writeWord a w => exact hcv h.1
  | commitLock a rest n => exact hcv h.1
  | gapCheck c => exact h.2.1

theorem Locked.owner (h : Locked v t x.writeSet []) {w : WordAddr × Word}
    (hw : w ∈ x.writeSet) : v.owner (lockOf w.1) = some t :=
  (h.owned w hw).resolve_left (by simp)

theorem Core.ver_le (h : Core all m₀ v t x) (hinv : VersionLock.Inv lockOf m₀ v)
    (hd : x.hist.done = false) : ∀ r ∈ x.hist.reads, r.ver ≤ v.clock := by
  intro r hr
  rw [← h.hist] at hd hr
  exact ((hinv.entry t hd r hr).1).trans (hinv.verLe _)

theorem Core.moves (h : Core all m₀ v t x) (hinv : VersionLock.Inv lockOf m₀ v)
    (hm : Moves lockOf m₀ v u v') (hne : t ≠ u) : Core all m₀ v' t x :=
  { h with
    hist := (hm.tx_eq hne).trans h.hist
    endLe := fun ht => (h.endLe ht).trans hm.clock_le
    safe := fun ht hd r hr => by
      obtain ⟨hle, hsafe⟩ := h.safe ht hd r hr
      exact ⟨hle, hm.safe hsafe (fun h => absurd h hne) (h.ver_le hinv hd r hr) (h.endLe ht)⟩
    kept := fun ht hd r hr =>
      hm.kept hinv (h.kept ht hd r hr) (by rw [hm.tx_eq hne]) (h.endLe ht)
    mayHold := fun ℓ ho => h.mayHold ℓ ((hm.owner_iff hne ℓ).1 ho) }

theorem TxInv.moves (h : TxInv all m₀ v t x) (hinv : VersionLock.Inv lockOf m₀ v)
    (hm : Moves lockOf m₀ v u v') (hne : t ≠ u) : TxInv all m₀ v' t x where
  core := h.core.moves hinv hm hne
  here := by
    have hhere := h.here
    have hclock := hm.clock_le
    have hown : ∀ ℓ, v.owner ℓ = some t → v'.owner ℓ = some t :=
      fun ℓ => (hm.owner_iff hne ℓ).2
    have hcore := h.core
    unfold PcInv at hhere ⊢
    cases hpc : x.pc with
    | readValue a l spin =>
        simp only [hpc] at hhere
        exact ⟨hhere.1, hhere.2.1, hhere.2.2.1, hhere.2.2.2.trans (hm.ver_le hinv _)⟩
    | readLockAgain a l value spin =>
        simp only [hpc] at hhere
        exact ⟨hhere.1, hhere.2.1, hhere.2.2.1, hm.seen hinv hhere.2.2.2⟩
    | extendClock k =>
        simp only [hpc] at hhere
        exact hhere.moves hinv hm hne
    | token k p =>
        simp only [hpc] at hhere
        exact hhere.moves hinv hm hne
    | validate k rest =>
        cases k with
        | extend last k =>
            simp only [hpc] at hhere
            obtain ⟨hk, hle, hlast, hchecked⟩ := hhere
            refine ⟨hk.moves hinv hm hne, hle, hlast.trans hclock, ?_⟩
            exact hchecked.moves hm hne (hcore.ver_le hinv (hk.not_done hinv hcore.hist)) hlast
        | writeWord a w =>
            simp only [hpc] at hhere
            exact hhere
        | commit c =>
            simp only [hpc] at hhere
            obtain ⟨hcv, hd, hlocked, hchecked⟩ := hhere
            have hle := (hinv.cvLe t c (by rw [hcore.hist, hcv])).2
            exact ⟨hcv, hd, hlocked.moves hm hne,
              hchecked.moves hm hne (hcore.ver_le hinv hd) (by omega)⟩
    | acquire rest =>
        simp only [hpc] at hhere
        exact hhere.moves hm hne
    | acquireTry a rest n p =>
        simp only [hpc] at hhere
        exact ⟨hhere.1.moves hm hne, hhere.2⟩
    | increment p =>
        simp only [hpc] at hhere
        exact ⟨hhere.1.moves hm hne, hhere.2.imp_right fun hp => ⟨hp.1, hp.2.trans hclock⟩⟩
    | writeBack c rest =>
        simp only [hpc] at hhere
        obtain ⟨hcv, hd, hlocked, hpending⟩ := hhere
        refine ⟨hcv, hd, hlocked.moves hm hne, fun w hw => ?_⟩
        obtain ⟨hmem, hval⟩ := hpending w hw
        refine ⟨hmem, (hm.mem_clock_eq hinv w.1 fun _ => .inl fun hu => ?_).trans hval⟩
        rw [hlocked.owner hmem] at hu
        exact hne (Option.some.inj hu)
    | releaseVersion c a rest =>
        simp only [hpc] at hhere
        exact ⟨hhere.1, hhere.2.1, hown _ hhere.2.2⟩
    | releaseStore c a rest =>
        simp only [hpc] at hhere
        exact ⟨hhere.1, hhere.2.1, hown _ hhere.2.2⟩
    | abortUnlock ℓ rest p =>
        simp only [hpc] at hhere
        exact ⟨hhere.1, hhere.2.moves hm hne⟩
    | releaseUnlock c a rest p => simp only [hpc] at hhere
    | _ =>
        simp only [hpc] at hhere
        exact hhere

end Stable

theorem TxInv.fresh {all : Bool} {m₀ : WordAddr → Word} {v : Proto} {t : TxId} {pc : Pc}
    (hpc : pc = .out ∨ pc = .beginClock) (c : ℕ) (hist : v.tx t = {})
    (hown : ∀ ℓ, v.owner ℓ ≠ some t) :
    TxInv all m₀ v t { pc := pc, commitVersion := c } where
  core :=
    { hist := hist
      endLe := fun _ => Nat.zero_le _
      logged := fun _ => by simp
      safe := fun _ _ => by simp
      kept := fun _ _ => by simp
      versionLt := by simp
      writes := fun _ _ => rfl
      nodup := List.nodup_nil
      readOnly := fun _ => rfl
      update := by simp
      heldWritten := by simp
      mayHold := fun ℓ ho => absurd ho (hown ℓ) }
  here := by
    rcases hpc with rfl | rfl <;> rfl

/-- A committed transaction has still to write `a` back. -/
def Pending (x : Tx) (a : WordAddr) (_ : Word) : Prop :=
  ∃ c rest w, x.pc = .writeBack c rest ∧ (a, w) ∈ rest

abbrev Inv (all : Bool) (m₀ : WordAddr → Word) (s : State Tx) : Prop :=
  SystemInv Tx.hist (TxInv all) Pending m₀ s

abbrev Next (all : Bool) (m₀ : WordAddr → Word) (s : State Tx) (t : TxId) (σ : Shared)
    (x : Tx) : Prop :=
  SystemNext Tx.hist (TxInv all) Pending m₀ s t σ x

end TinySTM.Wbctl
