import ClangTM.TinySTM.Wbetl.Basic
import ClangTM.TinySTM.Routines

/-!
# The invariant of WBETL

What a thread knows, in terms of the protocol state, is stable under the moves of the
other threads (`TxInv.moves`). A read is known in one of two ways (`Known`): it has an
entry in the read set and is valid up to `end_version`, or the transaction holds the
lock of the word since it read it, and the lock has not got newer. Reads of the second
kind need no validation, and the first kind is what `validate` goes through.

Memory differs from the committed memory only at words that a committed transaction
is writing back, byte by byte, and holds the locks of.
-/

namespace TinySTM.Wbetl

open Serial VersionLock

/-- The locks a thread can own at a program counter. -/
def MayHold (pc : Pc) (held : List LockIdx) (ℓ : LockIdx) : Prop :=
  match pc with
  | .writeOwned a _ => ℓ = lockOf a ∨ ℓ ∈ held
  | .release _ rest | .abortLocks rest => ℓ ∈ rest
  | .abortUnlock ℓ' rest _ => ℓ = ℓ' ∨ ℓ ∈ rest
  | .commitToken => False
  | _ => ℓ ∈ held

namespace Pc

def releasing : Pc → Bool
  | .release .. | .commitToken | .abortLocks .. | .abortUnlock .. => true
  | _ => false

/-- The program counters at which `locks_held` is the list of the locks owned. -/
def regular : Pc → Bool
  | .writeOwned .. => false
  | pc => !pc.releasing

end Pc

theorem mayHold_of_regular {pc : Pc} (h : pc.regular = true) {held : List LockIdx}
    {ℓ : LockIdx} : MayHold pc held ℓ ↔ ℓ ∈ held := by
  cases pc <;> first | rfl | simp [Pc.regular, Pc.releasing] at h

theorem releasing_of_regular {pc : Pc} (h : pc.regular = true) : pc.releasing = false := by
  cases pc <;> first | rfl | simp [Pc.regular, Pc.releasing] at h

/-- A recorded read has an entry in the read set and is valid up to `e`, or the
transaction holds its lock, at the version that was read. -/
def Known (v : Proto) (t : TxId) (rs : List ReadLogEntry) (e : ℕ) (r : Entry WordAddr Word) :
    Prop :=
  ((∃ r' ∈ rs, r'.addr = r.addr ∧ r'.observedVersion = r.ver) ∧ r.ver ≤ e ∧
      Safe lockOf v t r e) ∨
    (v.owner (lockOf r.addr) = some t ∧ v.ver (lockOf r.addr) ≤ r.ver)

/-- What a thread knows at every point of a transaction. -/
structure Core (v : Proto) (t : TxId) (x : Tx) : Prop where
  hist : v.tx t = x.hist
  endLe : x.endVersion ≤ v.clock
  known : x.hist.done = false → ∀ r ∈ x.hist.reads, Known v t x.readSet x.endVersion r
  versionLt : ∀ c, x.hist.cv = some c → c < versionMax
  writes : x.pc.releasing = false → ∀ a, lastWrite x.hist.trace a = x.writeSet.lookup a
  nodup : (x.writeSet.map Prod.fst).Nodup
  nodupHeld : x.locksHeld.Nodup
  readOnly : x.readOnly = true → x.locksHeld = []
  update : ∀ c, x.hist.cv = some c → x.readOnly = false
  held : x.pc.releasing = false → ∀ ℓ ∈ x.locksHeld, v.owner ℓ = some t
  written : ∀ w ∈ x.writeSet, lockOf w.1 ∈ x.locksHeld
  mayHold : ∀ ℓ, v.owner ℓ = some t → MayHold x.pc x.locksHeld ℓ

def Reading (v : Proto) (x : Tx) (a : WordAddr) (l : Word) : Prop :=
  x.hist.cv = none ∧ x.writeSet.lookup a = none ∧ versionOf l ≤ v.ver (lockOf a)

def Writing (x : Tx) : Prop := x.hist.cv = none ∧ x.readOnly = false

def PcInv (m₀ : WordAddr → Word) (v : Proto) (t : TxId) (x : Tx) : Prop :=
  match x.pc with
  | .out | .beginClock | .abortToken => x.hist = {} ∧ x.locksHeld = []
  | .abortLocks _ => x.hist = {}
  | .body => x.hist.cv = none
  | .readOwn a | .readLock a => x.hist.cv = none ∧ x.writeSet.lookup a = none
  | .readDirect a =>
      x.hist.cv = none ∧ x.writeSet.lookup a = none ∧ v.owner (lockOf a) = some t
  | .readValue a l => Reading v x a l ∧ isOwned l = false
  | .readLockAgain a l value =>
      Reading v x a l ∧ isOwned l = false ∧ Seen lockOf m₀ v a (versionOf l) value
  | .writeLocked .. | .writeOwner .. | .token .. | .waitLocked .. | .waitOwner ..
  | .waitEnd .. | .waitFree .. | .writeOwned .. | .validate (.writeWord ..) _ => Writing x
  | .tryLock _ _ _ p => Writing x ∧ p.Free
  | .extendClock (.readWord a l) => Reading v x a l
  | .extendClock (.commit c) => x.hist.cv = some c ∧ x.hist.done = false
  | .validate (.extend last (.readWord a l)) rest =>
      Reading v x a l ∧ (∀ r ∈ x.hist.reads, r.ver ≤ last) ∧ last ≤ v.clock ∧
        Checked v t x.hist.reads rest last
  | .validate (.extend last (.commit c)) rest =>
      x.hist.cv = some c ∧ x.hist.done = false ∧ last ≤ v.clock ∧
        Checked v t x.hist.reads rest (c - 1)
  | .increment p => Writing x ∧ p = .add
  | .writeBack c rest _ =>
      x.hist.cv = some c ∧ x.hist.done = true ∧
        ∀ w ∈ rest, w ∈ x.writeSet ∧ v.mem m₀ v.clock w.1 = w.2
  | .release c rest =>
      x.hist.cv = some c ∧ x.hist.done = true ∧ rest.Nodup ∧ ∀ ℓ ∈ rest, v.owner ℓ = some t
  | .commitToken =>
      (x.readOnly = true ∧ x.hist.cv = none ∧ ∀ a, lastWrite x.hist.trace a = none) ∨
        x.hist.done = true
  | .abortUnlock ℓ _ p => x.hist = {} ∧ p.Knows v t ℓ

structure TxInv (m₀ : WordAddr → Word) (v : Proto) (t : TxId) (x : Tx) : Prop where
  core : Core v t x
  here : PcInv m₀ v t x

section Stable

variable {m₀ : WordAddr → Word} {v v' : Proto} {t u : TxId} {x : Tx}

theorem Known.moves {rs : List ReadLogEntry} {e : ℕ} {r : Entry WordAddr Word}
    (h : Known v t rs e r) (hm : Moves lockOf m₀ v u v') (hlive : t = u → (v'.tx t).done = false)
    (hown : v.owner (lockOf r.addr) = some t → v'.owner (lockOf r.addr) = some t)
    (hv : r.ver ≤ v.clock) (he : e ≤ v.clock) : Known v' t rs e r := by
  rcases h with ⟨hlog, hle, hsafe⟩ | ⟨ho, hver⟩
  · exact .inl ⟨hlog, hle, hm.safe hsafe hlive hv he⟩
  · refine .inr ⟨hown ho, ?_⟩
    rwa [hm.ver_eq]
    intro hu
    obtain rfl : t = u := Option.some.inj (ho.symm.trans hu)
    exact hlive rfl

theorem Known.checked {rs : List ReadLogEntry} {e : ℕ} {r : Entry WordAddr Word}
    (h : Known v t rs e r) (hinv : VersionLock.Inv lockOf m₀ v) (hd : (v.tx t).done = false)
    (e' : ℕ) : (∃ r' ∈ rs, r'.addr = r.addr ∧ r'.observedVersion = r.ver) ∨
      Safe lockOf v t r e' := by
  rcases h with ⟨hlog, -⟩ | ⟨ho, hver⟩
  · exact .inl hlog
  · refine .inr (hinv.safe_of_check hd (fun u hu => ?_) hver e')
    exact Option.some.inj (hu.symm.trans ho)

theorem Reading.moves {a : WordAddr} {l : Word} (h : Reading v x a l)
    (hinv : VersionLock.Inv lockOf m₀ v) (hm : Moves lockOf m₀ v u v') : Reading v' x a l :=
  ⟨h.1, h.2.1, h.2.2.trans (hm.ver_le hinv _)⟩

theorem Core.ver_le (h : Core v t x) (hinv : VersionLock.Inv lockOf m₀ v)
    (hd : x.hist.done = false) : ∀ r ∈ x.hist.reads, r.ver ≤ v.clock := by
  intro r hr
  rw [← h.hist] at hd hr
  exact ((hinv.entry t hd r hr).1).trans (hinv.verLe _)

theorem Core.not_done (h : Core v t x) (hinv : VersionLock.Inv lockOf m₀ v)
    (hcv : x.hist.cv = none) : x.hist.done = false := by
  rw [← h.hist] at hcv ⊢
  exact hinv.not_done hcv

theorem Core.moves (h : Core v t x) (hinv : VersionLock.Inv lockOf m₀ v)
    (hm : Moves lockOf m₀ v u v') (hne : t ≠ u) : Core v' t x :=
  { h with
    hist := (hm.tx_eq hne).trans h.hist
    endLe := h.endLe.trans hm.clock_le
    known := fun hd r hr => (h.known hd r hr).moves hm (fun heq => absurd heq hne)
      (hm.owner_iff hne _).2 (h.ver_le hinv hd r hr) h.endLe
    held := fun hpc ℓ hℓ => (hm.owner_iff hne ℓ).2 (h.held hpc ℓ hℓ)
    mayHold := fun ℓ ho => h.mayHold ℓ ((hm.owner_iff hne ℓ).1 ho) }

theorem TxInv.moves (h : TxInv m₀ v t x) (hinv : VersionLock.Inv lockOf m₀ v)
    (hm : Moves lockOf m₀ v u v') (hne : t ≠ u) : TxInv m₀ v' t x where
  core := h.core.moves hinv hm hne
  here := by
    have hhere := h.here
    have hcore := h.core
    have hclock := hm.clock_le
    unfold PcInv at hhere ⊢
    cases hpc : x.pc with
    | readDirect a =>
        simp only [hpc] at hhere
        exact ⟨hhere.1, hhere.2.1, (hm.owner_iff hne _).2 hhere.2.2⟩
    | readValue a l =>
        simp only [hpc] at hhere
        exact ⟨hhere.1.moves hinv hm, hhere.2⟩
    | readLockAgain a l value =>
        simp only [hpc] at hhere
        exact ⟨hhere.1.moves hinv hm, hhere.2.1, hm.seen hinv hhere.2.2⟩
    | extendClock k =>
        cases k with
        | readWord a l =>
            simp only [hpc] at hhere
            exact hhere.moves hinv hm
        | commit c =>
            simp only [hpc] at hhere
            exact hhere
    | validate k rest =>
        rcases k with ⟨last, ⟨a, l⟩ | c⟩ | ⟨a, w⟩
        · simp only [hpc] at hhere
          obtain ⟨hread, hle, hlast, hchecked⟩ := hhere
          refine ⟨hread.moves hinv hm, hle, hlast.trans hclock, ?_⟩
          exact hchecked.moves hm hne (hcore.ver_le hinv (hcore.not_done hinv hread.1)) hlast
        · simp only [hpc] at hhere
          obtain ⟨hcv, hd, hlast, hchecked⟩ := hhere
          have hle := (hinv.cvLe t c (by rw [hcore.hist, hcv])).2
          exact ⟨hcv, hd, hlast.trans hclock,
            hchecked.moves hm hne (hcore.ver_le hinv hd) (by omega)⟩
        · simp only [hpc] at hhere
          exact hhere
    | writeBack c rest i =>
        simp only [hpc] at hhere
        obtain ⟨hcv, hd, hpending⟩ := hhere
        refine ⟨hcv, hd, fun w hw => ?_⟩
        obtain ⟨hmem, hval⟩ := hpending w hw
        refine ⟨hmem, (hm.mem_clock_eq hinv w.1 fun _ => .inl fun hu => ?_).trans hval⟩
        rw [hcore.held (by rw [hpc]; rfl) _ (hcore.written w hmem)] at hu
        exact hne (Option.some.inj hu)
    | release c rest =>
        simp only [hpc] at hhere
        obtain ⟨hcv, hd, hnodup, hown⟩ := hhere
        exact ⟨hcv, hd, hnodup, fun ℓ hℓ => (hm.owner_iff hne ℓ).2 (hown ℓ hℓ)⟩
    | abortUnlock ℓ rest p =>
        simp only [hpc] at hhere
        exact ⟨hhere.1, hhere.2.moves hm hne⟩
    | _ =>
        simp only [hpc] at hhere
        exact hhere

end Stable

theorem TxInv.fresh {m₀ : WordAddr → Word} {v : Proto} {t : TxId} (c : ℕ) (hist : v.tx t = {})
    (hown : ∀ ℓ, v.owner ℓ ≠ some t) : TxInv m₀ v t { commitVersion := c } where
  core :=
    { hist := hist
      endLe := Nat.zero_le _
      known := fun _ => by simp
      versionLt := by simp
      writes := fun _ _ => rfl
      nodup := List.nodup_nil
      nodupHeld := List.nodup_nil
      readOnly := fun _ => rfl
      update := by simp
      held := by simp
      written := by simp
      mayHold := fun ℓ ho => absurd ho (hown ℓ) }
  here := ⟨rfl, rfl⟩

/-- A committed transaction has still to write bytes of `a` back; what it has written
of them so far is in the content `m`. -/
def Pending (x : Tx) (a : WordAddr) (m : Word) : Prop :=
  ∃ c w rest i, x.pc = .writeBack c (w :: rest) i ∧
    ((∃ u ∈ rest, u.1 = a) ∨ w.1 = a ∧ SameBytes i.val m w.2)

abbrev Inv (m₀ : WordAddr → Word) (s : State Tx) : Prop :=
  SystemInv Tx.hist TxInv Pending m₀ s

abbrev Next (m₀ : WordAddr → Word) (s : State Tx) (t : TxId) (σ : Shared) (x : Tx) : Prop :=
  SystemNext Tx.hist TxInv Pending m₀ s t σ x

abbrev Goes (m₀ : WordAddr → Word) (v : Proto) (t : TxId) (x : Tx) : Prop :=
  SystemGoes Tx.hist TxInv m₀ v t x

end TinySTM.Wbetl
