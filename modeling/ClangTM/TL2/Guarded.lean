import ClangTM.Certify.Phase
import ClangTM.TL2.Guard

/-!
# Backends with a table of guards

TL2 and TSC-TM have the same guards, read sets, write sets and commits; they differ in the
version with which a commit releases its guards, and in what else a transaction keeps. A
`Backend` says which part of its states is the common one, as a state of TL2 in which the
other fields are not used (`table` and `core`), and what it knows besides (`Shape` and `Own`).

For every access that the two have in common there is one lemma: the access is a move of the
certifying protocol, and keeps its invariant if the backend keeps what it knows.
-/

namespace TL2

open Serial Transition Certify

abbrev Proto (T : Type) := Certify.State CellAddr Word GuardIdx T

def phase : Pc → Phase CellAddr Word
  | .out | .beginClock => .idle
  | .body | .readGuard _ | .readValue .. | .acquire .. | .acquireCas .. | .tick _ => .active
  | .giveBack _ => .failing
  | .validate rest _ => .checking (reads rest)
  | .writeBack rest _ => .writing rest
  | .release _ => .writing []

def undecided : Phase CellAddr Word → Bool
  | .idle | .writing _ => false
  | _ => true

def held : Pc → List GuardIdx
  | .acquire _ _ held | .acquireCas _ _ _ held | .giveBack held | .tick held
  | .validate _ held | .writeBack _ held | .release held => held
  | _ => []

/-- The guards agree with the book. -/
structure Guards {T : Type} (σ : Shared T) : Prop where
  locked : ∀ ℓ, isLocked (σ.gGuards ℓ) = true ↔ σ.book.owner ℓ ≠ none
  ver : ∀ ℓ, (guardVersion (σ.gGuards ℓ)).toNat = σ.book.ver ℓ

namespace Tx

variable (x : Tx)

def loc : Local CellAddr Word GuardIdx :=
  ⟨phase x.pc, held x.pc, reads x.readSet, x.writeSet, x.hist⟩

def leave : Tx := { x with pc := .out, hist := {} }

/-- A commit that fails, with some guards to give back. -/
def failFrom (held : List GuardIdx) : Tx :=
  if held = [] then x.leave else { x with pc := .giveBack held }

/-- A committed transaction with some guards to release. -/
def releaseFrom (held : List GuardIdx) : Tx :=
  if held = [] then x.leave else { x with pc := .release held }

end Tx

def Here (ver : GuardIdx → ℕ) (x : Tx) : Prop :=
  match x.pc with
  | .readGuard a => x.writeSet.lookup a = none
  | .readValue a version =>
      x.writeSet.lookup a = none ∧ version.toNat ≤ ver (getGuardIdx a) ∧
        (a, version.toNat) ∈ reads x.readSet
  | .acquire e rest held => Covered x.writeSet held (e :: rest)
  | .acquireCas guard e rest held =>
      Covered x.writeSet held (e :: rest) ∧ isLocked guard = false
  | .giveBack held => held ≠ []
  | .tick held => Covered x.writeSet held []
  | _ => True

structure Knows (ver : GuardIdx → ℕ) (x : Tx) : Prop where
  filtered : phase x.pc ≠ .idle → Filtered x.bloomFilter x.writeSet
  here : Here ver x

theorem Knows.mono {ver ver' : GuardIdx → ℕ} {x : Tx} (h : Knows ver x)
    (hle : ∀ ℓ, ver ℓ ≤ ver' ℓ) : Knows ver' x := by
  refine ⟨h.filtered, ?_⟩
  have hhere := h.here
  unfold Here at hhere ⊢
  cases hpc : x.pc with
  | readValue a version =>
      rw [hpc] at hhere
      exact ⟨hhere.1, hhere.2.1.trans (hle _), hhere.2.2⟩
  | _ =>
      rw [hpc] at hhere
      exact hhere

/-- What a thread knows besides, `Own`, depends on the versions of the guards it holds. -/
structure Backend (T S X : Type) where
  table : S → Shared T
  core : X → Tx
  Shape : S → Prop
  Own : (GuardIdx → ℕ) → X → Prop
  stable : ∀ {ver ver' : GuardIdx → ℕ} {x : X}, Own ver x →
    (∀ ℓ ∈ held (core x).pc, ver' ℓ = ver ℓ) → Own ver' x

section Acquire

variable (rest : List (CellAddr × Word)) (hl : List GuardIdx)

@[simp] theorem held_acquireNext : held (Tx.acquireNext rest hl) = hl := by
  unfold Tx.acquireNext
  split <;> rfl

@[simp] theorem phase_acquireNext : phase (Tx.acquireNext rest hl) = .active := by
  unfold Tx.acquireNext
  split <;> rfl

theorem here_acquireNext {ver : GuardIdx → ℕ} {rest : List (CellAddr × Word)} {hl : List GuardIdx}
    {x : Tx} (h : Covered x.writeSet hl rest) :
    Here ver { x with pc := Tx.acquireNext rest hl } := by
  have hskip := h.skip
  unfold Tx.acquireNext
  cases hd : rest.dropWhile fun e => getGuardIdx e.1 ∈ hl with
  | nil =>
      rw [hd] at hskip
      exact hskip
  | cons e rest' =>
      rw [hd] at hskip
      exact hskip

end Acquire

theorem Guards.setGuard {T : Type} {σ : Shared T} (h : Guards σ) {ℓ : GuardIdx} {g : Word}
    {b : Book CellAddr Word GuardIdx T} (hlocked : isLocked g = true ↔ b.owner ℓ ≠ none)
    (hver : (guardVersion g).toNat = b.ver ℓ)
    (hother : ∀ k, k ≠ ℓ → b.owner k = σ.book.owner k ∧ b.ver k = σ.book.ver k) :
    Guards (σ.setGuard ℓ g b) := by
  refine ⟨fun k => ?_, fun k => ?_⟩
  all_goals
    by_cases hk : k = ℓ
    · subst hk
      simpa [Shared.setGuard]
    · simp [Shared.setGuard, hk, hother k hk, h.locked k, h.ver k]

namespace Backend

variable {T S X : Type} [DecidableEq T]

def phased (B : Backend T S X) : Phased CellAddr Word GuardIdx T S X where
  lock := getGuardIdx
  book σ := (B.table σ).book
  mem σ := (B.table σ).mem
  loc x := (B.core x).loc
  Shape σ := Guards (B.table σ) ∧ B.Shape σ
  Extra _ v _ x := Knows v.ver (B.core x) ∧ B.Own v.ver x
  stable h hok _ hm hne := ⟨h.1.mono hm.ver_le, B.stable h.2 fun ℓ hℓ =>
    hm.ver_eq hne ((hok.held ℓ).2 hℓ)⟩

variable {B : Backend T S X} {m₀ : CellAddr → Word} {s : Threads S X T} {t : T} {σ : S} {x : X}
  {y : Tx}

abbrev Inv (B : Backend T S X) (m₀ : CellAddr → Word) (s : Threads S X T) : Prop :=
  B.phased.design.Inv m₀ s

abbrev Good (B : Backend T S X) (m₀ : CellAddr → Word) (s : Threads S X T) (t : T) (σ : S)
    (x : X) : Prop :=
  B.phased.Good m₀ s t σ x

abbrev view (B : Backend T S X) (s : Threads S X T) : Proto T := B.phased.design.view s

abbrev ver (B : Backend T S X) (σ : S) : GuardIdx → ℕ := (B.table σ).book.ver

abbrev now (B : Backend T S X) (s : Threads S X T) (t : T) : Tx := B.core (s.tx t)

theorem good_of {ν : Shared T} (hσ : B.table σ = ν) (hx : B.core x = y)
    (hne : ∀ w rest, phase (B.now s t).pc ≠ .writing (w :: rest))
    (hadv : Advance getGuardIdx m₀ (B.view s) t ν.book y.loc) (hguards : Guards ν)
    (hshape : B.Shape σ) (hknows : Knows ν.book.ver y) (hown : B.Own ν.book.ver x)
    (hmem : ν.mem = (B.table s.shared).mem)
    (hlog : ∀ a, memAt m₀ ν.book.log ν.book.clock a =
      (B.view s).mem m₀ (B.view s).clock a) : B.Good m₀ s t σ x := by
  subst hσ hx
  exact Phased.good_of_advance (Local.not_pending hne) hadv ⟨hguards, hshape⟩ ⟨hknows, hown⟩
    hmem hlog

section Step

variable (h : B.Inv m₀ s)
include h

theorem here {pc : Pc} (hpc : (B.now s t).pc = pc) :
    Here (B.ver s.shared) { B.now s t with pc := pc } := by
  subst hpc
  exact (h.tx t).2.1.here

/-- A step that changes nothing but its thread. -/
theorem good_local (hx : B.core x = y)
    (hne : ∀ w rest, phase (B.now s t).pc ≠ .writing (w :: rest))
    (hadv : Advance getGuardIdx m₀ (B.view s) t (B.table s.shared).book y.loc)
    (hknows : Knows (B.ver s.shared) y) (hown : B.Own (B.ver s.shared) x) :
    B.Good m₀ s t s.shared x :=
  good_of rfl hx hne hadv h.shape.1 h.shape.2 hknows hown rfl fun _ => rfl

variable {pc pc' : Pc} (hpc : (B.now s t).pc = pc)
include hpc

theorem goto_good (hx : B.core x = { B.now s t with pc := pc' }) (hphase : phase pc' = phase pc)
    (hheld : held pc' = held pc) (hne : ∀ w rest, phase pc ≠ .writing (w :: rest))
    (hhere : Here (B.ver s.shared) { B.now s t with pc := pc' })
    (hown : B.Own (B.ver s.shared) x) : B.Good m₀ s t s.shared x := by
  subst hpc
  have hok := (h.tx t).1
  have hloc : Tx.loc { B.now s t with pc := pc' } = (B.now s t).loc := by
    rw [Tx.loc, Tx.loc, hphase, hheld]
  refine good_local h hx hne ?_ ⟨fun hp => (h.tx t).2.1.filtered (hphase ▸ hp), hhere⟩ hown
  rw [hloc]
  exact hok.same rfl rfl hok.here

theorem end_good (hheld : held pc = []) (hne : ∀ rest, phase pc ≠ .writing rest)
    (hx : B.core x = (B.now s t).leave) (hown : B.Own (B.ver s.shared) x) :
    B.Good m₀ s t s.shared x := by
  subst hpc
  exact good_local h hx (fun _ _ => hne _) ((h.tx t).1.abort h.proto hne hheld _ _)
    ⟨fun hp => absurd rfl hp, trivial⟩ hown

theorem begin_good (hidle : phase pc = .idle) (hx : B.core x = { pc := .body })
    (hown : B.Own (B.ver s.shared) x) : B.Good m₀ s t s.shared x := by
  subst hpc
  exact good_local h hx (by simp [hidle]) ((h.tx t).1.begin hidle)
    ⟨fun _ => by simp [Filtered], trivial⟩ hown

theorem fail_good (hopen : undecided (phase pc) = true)
    (hx : B.core x = (B.now s t).failFrom (held pc)) (hown : B.Own (B.ver s.shared) x) :
    B.Good m₀ s t s.shared x := by
  subst hpc
  have hne : ∀ rest, phase (B.now s t).pc ≠ .writing rest := fun rest hp => by
    simp [hp, undecided] at hopen
  by_cases hnil : held (B.now s t).pc = []
  · exact end_good h rfl hnil hne (hx.trans (if_pos hnil)) hown
  · exact good_local h (hx.trans (if_neg hnil)) (fun _ _ => hne _)
      ((h.tx t).1.fail h.proto hne (reads (B.now s t).readSet) (B.now s t).writeSet)
      ⟨fun _ => (h.tx t).2.1.filtered fun hp => by simp [hp, undecided] at hopen, hnil⟩ hown

/-- The guard of the next entry has been loaded: it is locked, or the compare-and-swap
follows. -/
theorem acquireLoad_good {e : CellAddr × Word} {rest : List (CellAddr × Word)}
    (hactive : phase pc = .active) (hcov : Covered (B.now s t).writeSet (held pc) (e :: rest))
    {g : Word} (hx : B.core x = if isLocked g then (B.now s t).failFrom (held pc)
      else { B.now s t with pc := .acquireCas g e rest (held pc) })
    (hown : B.Own (B.ver s.shared) x) : B.Good m₀ s t s.shared x := by
  by_cases hlocked : isLocked g = true
  · rw [if_pos hlocked] at hx
    exact fail_good h hpc (by rw [hactive]; rfl) hx hown
  · rw [if_neg hlocked] at hx
    exact goto_good h hpc hx hactive.symm rfl (by simp [hactive]) ⟨hcov, by simpa using hlocked⟩
      hown

end Step

section Step

variable (h : B.Inv m₀ s)
include h

section Body

variable (hpc : (B.now s t).pc = .body)
include hpc

theorem readImpl_good {a : CellAddr} (hx : B.core x = (B.now s t).readImpl a)
    (hown : B.Own (B.ver s.shared) x) : B.Good m₀ s t s.shared x := by
  have hactive : phase (B.now s t).pc = .active := by rw [hpc]; rfl
  have hfiltered := (h.tx t).2.1.filtered (by simp [hactive])
  rw [Tx.readImpl, Tx.find_eq hfiltered] at hx
  cases hw : (B.now s t).writeSet.lookup a with
  | none =>
      rw [hw] at hx
      exact goto_good h hpc hx rfl rfl (by simp [phase]) hw hown
  | some v =>
      rw [hw] at hx
      exact good_local h hx (by simp [hactive]) ((h.tx t).1.readOwn hactive hw)
        ⟨fun _ => hfiltered, by simp [Here, hpc]⟩ hown

theorem writeImpl_good {a : CellAddr} {v : Word} (hx : B.core x = (B.now s t).writeImpl a v)
    (hown : B.Own (B.ver s.shared) x) : B.Good m₀ s t s.shared x := by
  have hactive : phase (B.now s t).pc = .active := by rw [hpc]; rfl
  have hsets := ((h.tx t).1.hereAt hactive).1
  have hadv := (h.tx t).1.write hactive a v (reads (B.now s t).readSet)
    (putBack a v (B.now s t).writeSet) (fun b => lookup_putBack a b v _) (nodup_putBack hsets.nodup)
    (List.Subset.refl _)
  refine good_local h hx (by simp [hactive]) hadv
    ⟨fun _ => ?_, by simp [Here, Tx.writeImpl, hpc]⟩ hown
  exact ((h.tx t).2.1.filtered (by simp [hactive])).write a v

theorem commitStart_good (hx : B.core x = (B.now s t).commitStart)
    (hown : B.Own (B.ver s.shared) x) : B.Good m₀ s t s.shared x := by
  have hactive : phase (B.now s t).pc = .active := by rw [hpc]; rfl
  obtain ⟨hsets, hcv⟩ := (h.tx t).1.hereAt hactive
  have hperm : (B.now s t).writeSet.Perm (Tx.sortWriteSet (B.now s t).writeSet) :=
    (List.perm_insertionSort _ _).symm
  have hlookup := lookup_eq_of_perm hperm hsets.nodup
  have hadv := (h.tx t).1.same
    (y := ⟨.active, [], reads (B.now s t).readSet, Tx.sortWriteSet (B.now s t).writeSet,
      (B.now s t).hist⟩) (by show [] = held (B.now s t).pc; rw [hpc]; rfl) rfl
    ⟨⟨fun a => (hsets.writes a).trans (hlookup a).symm,
      (hperm.map Prod.fst).nodup_iff.1 hsets.nodup, hsets.reads⟩, hcv⟩
  refine good_local h hx (by simp [hactive]) ?_ ⟨fun _ a ha => ?_,
    here_acquireNext (x := (B.now s t).commitStart) fun w hw => .inr hw⟩ hown
  · rw [Tx.commitStart, Tx.loc, phase_acquireNext, held_acquireNext]
    exact hadv
  · exact (h.tx t).2.1.filtered (by simp [hactive]) a (hlookup a ▸ ha)

end Body

theorem noteGuard_good {a : CellAddr} (hpc : (B.now s t).pc = .readGuard a)
    (hx : B.core x = (B.now s t).noteGuard a ((B.table s.shared).gGuards (getGuardIdx a)))
    (hown : B.Own (B.ver s.shared) x) : B.Good m₀ s t s.shared x := by
  have hactive : phase (B.now s t).pc = .active := by rw [hpc]; rfl
  have hfresh : (B.now s t).writeSet.lookup a = none := here h hpc
  obtain ⟨hsets, hcv⟩ := (h.tx t).1.hereAt hactive
  refine good_local h hx (by simp [hactive])
    ((h.tx t).1.same (by show [] = held (B.now s t).pc; rw [hpc]; rfl) rfl
      ⟨⟨hsets.writes, hsets.nodup, fun r hr => ?_⟩, hcv⟩)
    ⟨fun _ => (h.tx t).2.1.filtered (by simp [hactive]), hfresh, (h.shape.1.ver _).le, ?_⟩ hown
  · show _ ∈ reads (_ ++ [_])
    rw [reads_append]
    exact List.mem_append_left _ (hsets.reads r hr)
  · rw [Tx.noteGuard, reads_append]
    exact List.mem_append_right _ List.mem_cons_self

theorem readValue_good {a : CellAddr} {version : Word}
    (hpc : (B.now s t).pc = .readValue a version)
    (hx : B.core x = (B.now s t).readValue a version ((B.table s.shared).mem a))
    (hown : B.Own (B.ver s.shared) x) : B.Good m₀ s t s.shared x := by
  have hactive : phase (B.now s t).pc = .active := by rw [hpc]; rfl
  obtain ⟨hfresh, hle, hmem⟩ := here h hpc
  have hseen : Seen getGuardIdx m₀ (B.view s) a version.toNat ((B.table s.shared).mem a) :=
    ⟨hle, fun _ hset => (Phased.mem_of_settled h hset).symm⟩
  have hadv := (h.tx t).1.read hactive
    (show (B.now s t).loc.writeSet.lookup a = none from hfresh) hseen (reads (B.now s t).readSet)
    (List.Subset.refl _) hmem
  have hloc : B.phased.loc (s.tx t) =
      ⟨.active, [], reads (B.now s t).readSet, (B.now s t).writeSet, (B.now s t).hist⟩ := by
    show Tx.loc _ = _
    rw [Tx.loc, hactive, hpc]
    rfl
  rw [hloc] at hadv
  exact good_local h hx (by simp [hactive]) hadv
    ⟨fun _ => (h.tx t).2.1.filtered (by simp [hactive]), trivial⟩ hown

variable {hl : List GuardIdx} {rest : List (CellAddr × Word)}

/-- The compare-and-swap of `try_acquire_guard` has set the lock bit. -/
theorem acquired_good {guard : Word} {e : CellAddr × Word}
    (hpc : (B.now s t).pc = .acquireCas guard e rest hl)
    (hguard : (B.table s.shared).gGuards (getGuardIdx e.1) = guard)
    (hσ : B.table σ = (B.table s.shared).setGuard (getGuardIdx e.1) (guard ||| lockMask)
      ((B.table s.shared).book.acquire (getGuardIdx e.1) t))
    (hx : B.core x = { B.now s t with pc := Tx.acquireNext rest (hl ++ [getGuardIdx e.1]) })
    (hshape : B.Shape σ) (hown : B.Own (B.ver s.shared) x) : B.Good m₀ s t σ x := by
  have hactive : phase (B.now s t).pc = .active := by rw [hpc]; rfl
  have hheld : held (B.now s t).pc = hl := by rw [hpc]; rfl
  obtain ⟨hcov, hunlocked⟩ := here h hpc
  have hfree : (B.table s.shared).book.owner (getGuardIdx e.1) = none := by
    by_contra hne
    have hlocked := (h.shape.1.locked _).2 hne
    rw [hguard, hunlocked] at hlocked
    cases hlocked
  have hver := h.shape.1.ver (getGuardIdx e.1)
  rw [hguard] at hver
  have hadv := (h.tx t).1.acquire hactive hfree
  refine good_of hσ hx (by simp [hactive]) ?_ ?_ hshape
    ⟨fun _ => (h.tx t).2.1.filtered (by simp [hactive]), here_acquireNext hcov.lock⟩ hown rfl
    fun _ => rfl
  · rw [Tx.loc, phase_acquireNext, held_acquireNext, ← hactive, ← hheld]
    exact hadv
  · refine h.shape.1.setGuard (by simp) ?_ fun k hk => by simp [hk]
    rw [guardVersion_lock]
    exact hver

/-- The first guard held is given back as it was. -/
theorem giveBack_good {ℓ : GuardIdx} {rest : List GuardIdx}
    (hpc : (B.now s t).pc = .giveBack (ℓ :: rest)) {guard : Word}
    (hguard : (B.table s.shared).gGuards ℓ &&& ~~~lockMask = guard)
    (hσ : B.table σ = (B.table s.shared).setGuard ℓ guard
      ((B.table s.shared).book.unlock ℓ (guardVersion guard).toNat))
    (hx : B.core x = (B.now s t).failFrom rest) (hshape : B.Shape σ)
    (hown : B.Own (B.ver s.shared) x) : B.Good m₀ s t σ x := by
  have hphase : phase (B.now s t).pc = .failing := by rw [hpc]; rfl
  have hheld : held (B.now s t).pc = ℓ :: rest := by rw [hpc]; rfl
  have hver : (guardVersion guard).toNat = (B.table s.shared).book.ver ℓ := by
    rw [← hguard, guardVersion_unlock]
    exact h.shape.1.ver ℓ
  have hunlocked : isLocked guard = false := by rw [← hguard, isLocked_unlock]
  have hown : B.Own (Function.update (B.ver s.shared) ℓ (guardVersion guard).toNat) x := by
    rw [hver, Function.update_eq_self]
    exact hown
  have hadv := (h.tx t).1.unlock hphase hheld hver.ge
  have hguards := h.shape.1.setGuard (ℓ := ℓ) (g := guard)
    (b := (B.table s.shared).book.unlock ℓ (guardVersion guard).toNat) (by simp [hunlocked])
    (by simp) fun k hk => by simp [hk]
  by_cases hnil : rest = []
  · subst hnil
    refine good_of hσ hx (by simp [hphase]) (hadv.trans (hadv.ok.abort (hadv.moves.inv h.proto)
      (fun r hw => ?_) rfl _ _)) hguards hshape ⟨fun hp => absurd rfl hp, trivial⟩ hown rfl
      fun _ => rfl
    rw [show phase (B.now s t).pc = .writing r from hw] at hphase
    cases hphase
  · refine good_of hσ (hx.trans (if_neg hnil)) (by simp [hphase]) ?_ hguards hshape
      ⟨fun _ => (h.tx t).2.1.filtered (by simp [hphase]), hnil⟩ hown rfl fun _ => rfl
    rw [show B.phased.loc (s.tx t) = ⟨.failing, _, _, _, _⟩ by
      show Local.mk _ _ _ _ _ = _; rw [hphase]] at hadv
    exact hadv

/-- The read set has been checked up to `rest`; with nothing left the transaction
commits. -/
theorem validateFrom_good {ν : Shared T} {rest : List ReadSetEntry}
    (hσx : (B.table σ, B.core x) = validateFrom ν y rest hl)
    (hne : ∀ w r, phase (B.now s t).pc ≠ .writing (w :: r))
    (hadv : Advance getGuardIdx m₀ (B.view s) t ν.book
      ⟨.checking (reads rest), hl, reads y.readSet, y.writeSet, y.hist⟩)
    (hfiltered : Filtered y.bloomFilter y.writeSet) (hguards : Guards ν)
    (hver : ν.book.ver = B.ver s.shared) (hmem : ν.mem = (B.table s.shared).mem)
    (hlog : ∀ a, memAt m₀ ν.book.log ν.book.clock a = (B.view s).mem m₀ (B.view s).clock a)
    (hshape : B.Shape σ) (hown : B.Own (B.ver s.shared) x) : B.Good m₀ s t σ x := by
  rw [← hver] at hown
  cases rest with
  | cons r rest =>
      exact good_of (congrArg Prod.fst hσx) (congrArg Prod.snd hσx) hne hadv hguards hshape
        ⟨fun _ => hfiltered, trivial⟩ hown hmem hlog
  | nil =>
      obtain ⟨hσ, hx⟩ := Prod.ext_iff.1 hσx
      have hbook : B.phased.book σ = ν.book.commit (y.hist.cv.getD 0) y.hist.trace :=
        congrArg Shared.book hσ
      refine Phased.good_commit h hadv.moves hadv.ok rfl (Local.not_pending hne) hlog hbook
        (congrArg Tx.loc hx) ⟨?_, hshape⟩ ⟨?_, ?_⟩ ((congrArg Shared.mem hσ).trans hmem)
      · rw [show B.table σ = _ from hσ]
        exact ⟨hguards.locked, hguards.ver⟩
      · rw [show B.core x = _ from hx]
        exact ⟨fun _ => hfiltered, trivial⟩
      · show B.Own (B.phased.book σ).ver x
        rw [hbook]
        exact hown

/-- A commit that holds its guards takes its place in the serial order. -/
theorem tick_good (hpc : (B.now s t).pc = .tick hl)
    (hσx : (B.table σ, B.core x) = validateFrom
      { B.table s.shared with book := (B.table s.shared).book.tick }
      { B.now s t with hist.cv := some ((B.table s.shared).book.clock + 1) }
      (B.now s t).readSet hl)
    (hshape : B.Shape σ) (hown : B.Own (B.ver s.shared) x) : B.Good m₀ s t σ x := by
  have hactive : phase (B.now s t).pc = .active := by rw [hpc]; rfl
  have hheld : held (B.now s t).pc = hl := by rw [hpc]; rfl
  have hcov : Covered (B.now s t).writeSet hl [] := here h hpc
  have hadv := (h.tx t).1.tick h.proto hactive fun w hw => by
    show getGuardIdx w.1 ∈ held (B.now s t).pc
    rw [hheld]
    exact (hcov w hw).resolve_right (by simp)
  rw [show (B.phased.loc (s.tx t)).held = hl from hheld] at hadv
  refine validateFrom_good h hσx (by simp [hactive]) hadv
    ((h.tx t).2.1.filtered (by simp [hactive])) ⟨h.shape.1.locked, h.shape.1.ver⟩ rfl rfl
    (fun a => ?_) hshape hown
  exact congrFun (memAt_succ_of_none (h.proto.log_above (Nat.lt_succ_self _))) a

/-- An entry that has its version, with a guard that is free or the transaction's own. -/
theorem validate_good {r : ReadSetEntry} {rest : List ReadSetEntry}
    (hpc : (B.now s t).pc = .validate (r :: rest) hl)
    (hfresh : r.stale hl ((B.table s.shared).gGuards (getGuardIdx r.dataAddr)) = false)
    (hσx : (B.table σ, B.core x) = validateFrom (B.table s.shared) (B.now s t) rest hl)
    (hshape : B.Shape σ) (hown : B.Own (B.ver s.shared) x) : B.Good m₀ s t σ x := by
  have hphase : phase (B.now s t).pc = .checking (reads (r :: rest)) := by rw [hpc]; rfl
  have hheld : held (B.now s t).pc = hl := by rw [hpc]; rfl
  obtain ⟨hlock, hver⟩ : (isLocked ((B.table s.shared).gGuards (getGuardIdx r.dataAddr)) = true →
      getGuardIdx r.dataAddr ∈ hl) ∧
      guardVersion ((B.table s.shared).gGuards (getGuardIdx r.dataAddr)) = r.observedVersion := by
    simpa [ReadSetEntry.stale] using hfresh
  have hok := (h.tx t).1
  have hadv := hok.check h.proto hphase (fun u hu => ?_) ?_
  · rw [show (B.phased.loc (s.tx t)).held = hl from hheld] at hadv
    exact validateFrom_good h hσx (by simp [hphase]) hadv
      ((h.tx t).2.1.filtered (by simp [hphase])) h.shape.1 rfl rfl (fun _ => rfl) hshape hown
  · have hlocked := (h.shape.1.locked (getGuardIdx r.dataAddr)).2 (by
      rw [show (B.table s.shared).book.owner (getGuardIdx r.dataAddr) = some u from hu]
      simp)
    have hown := (hok.held (getGuardIdx r.dataAddr)).2 (by
      show getGuardIdx r.dataAddr ∈ held (B.now s t).pc
      rw [hheld]
      exact hlock hlocked)
    exact Option.some.inj (hu.symm.trans hown)
  · show (B.table s.shared).book.ver (getGuardIdx r.dataAddr) = r.observedVersion.toNat
    rw [← hver]
    exact (h.shape.1.ver _).symm

theorem writeBack_good {w : CellAddr × Word} (hpc : (B.now s t).pc = .writeBack (w :: rest) hl)
    (hσ : B.table σ = { B.table s.shared with
      mem := Function.update (B.table s.shared).mem w.1 w.2 })
    (hx : B.core x = { B.now s t with
      pc := if rest = [] then .release hl else .writeBack rest hl })
    (hshape : B.Shape σ) (hown : B.Own (B.ver s.shared) x) : B.Good m₀ s t σ x := by
  have hphase : phase (B.now s t).pc = .writing (w :: rest) := by rw [hpc]; rfl
  have hheld : held (B.now s t).pc = hl := by rw [hpc]; rfl
  have hnew : phase (if rest = [] then .release hl else .writeBack rest hl) = .writing rest ∧
      held (if rest = [] then .release hl else .writeBack rest hl) = hl := by
    by_cases hnil : rest = []
    · simp [hnil, phase, held]
    · simp [hnil, phase, held]
  have hbook : (B.table σ).book = (B.table s.shared).book := by rw [hσ]
  refine Phased.good_store h hphase (fun ℓ => Iff.rfl) (h.tx t).1.nodup hbook ?_ ⟨?_, hshape⟩
    ⟨?_, ?_⟩ (congrArg Shared.mem hσ)
  · show (B.core x).loc = Local.mk _ (held (B.now s t).pc) _ _ _
    rw [hx, Tx.loc, hnew.1, hnew.2, hheld]
    rfl
  · rw [hσ]
    exact ⟨h.shape.1.locked, h.shape.1.ver⟩
  · rw [hx]
    refine ⟨fun _ => (h.tx t).2.1.filtered (by simp [hphase]), ?_⟩
    by_cases hnil : rest = [] <;> simp [Here, hnil]
  · show B.Own (B.table σ).book.ver x
    rw [hbook]
    exact hown

/-- A guard is released with a larger version; the last one ends the commit. -/
theorem release_good {ℓ : GuardIdx} {rest : List GuardIdx}
    (hpc : (B.now s t).pc = .release (ℓ :: rest)) {guard : Word} (hfree : isLocked guard = false)
    (hgrow : B.ver s.shared ℓ < (guardVersion guard).toNat)
    (hσ : B.table σ = (B.table s.shared).setGuard ℓ guard
      ((B.table s.shared).book.release ℓ (guardVersion guard).toNat
        ((B.now s t).hist.cv.getD 0)))
    (hx : B.core x = (B.now s t).releaseFrom rest) (hshape : B.Shape σ)
    (hown : B.Own (Function.update (B.ver s.shared) ℓ (guardVersion guard).toNat) x) :
    B.Good m₀ s t σ x := by
  have hphase : phase (B.now s t).pc = .writing [] := by rw [hpc]; rfl
  have hheld : held (B.now s t).pc = ℓ :: rest := by rw [hpc]; rfl
  have hadv := (h.tx t).1.release h.proto hphase hheld hgrow
  have hguards := h.shape.1.setGuard (ℓ := ℓ) (g := guard)
    (b := (B.table s.shared).book.release ℓ (guardVersion guard).toNat
      ((B.now s t).hist.cv.getD 0)) (by simp [hfree]) (by simp) fun k hk => by simp [hk]
  by_cases hnil : rest = []
  · subst hnil
    exact good_of hσ hx (by simp [hphase]) (hadv.trans (hadv.ok.finish hphase rfl _ _)) hguards
      hshape ⟨fun hp => absurd rfl hp, trivial⟩ hown rfl fun _ => rfl
  · refine good_of hσ (hx.trans (if_neg hnil)) (by simp [hphase]) ?_ hguards hshape
      ⟨fun _ => (h.tx t).2.1.filtered (by simp [hphase]), trivial⟩ hown rfl fun _ => rfl
    rw [show B.phased.loc (s.tx t) = ⟨.writing [], _, _, _, _⟩ by
      show Local.mk _ _ _ _ _ = _; rw [hphase]] at hadv
    exact hadv

/-- The update transactions are a serial run, which leads to memory at every word whose guard
is not locked. -/
theorem serial : ∃ m,
    SerialRun m₀ (schedule (B.table s.shared).book.log [] (B.table s.shared).book.clock) m ∧
      ∀ a, isLocked ((B.table s.shared).gGuards (getGuardIdx a)) = false →
        (B.table s.shared).mem a = m a := by
  refine ⟨_, schedule_serialRun (B.table s.shared).book.clock
    (fun c w _ _ hw => h.proto.logLegal c w hw) (by simp), fun a ha => ?_⟩
  refine Phased.mem_of_settled h fun u hu => ?_
  have hlocked := (h.shape.1.locked (getGuardIdx a)).2 (by
    rw [show (B.table s.shared).book.owner (getGuardIdx a) = some u from hu]
    simp)
  simp [ha] at hlocked

end Step

end Backend

end TL2
