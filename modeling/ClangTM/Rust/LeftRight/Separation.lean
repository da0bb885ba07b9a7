import Mathlib.Data.Fintype.Basic
import ClangTM.Rust.LeftRight.Basic

/-!
# Readers and writers of the left-right backend

`tm_commit` stores to `ACTIVE` the negation of `active_was_left`, which is itself the
negation of `ACTIVE`: the store leaves `ACTIVE` as it was, and the active copy is `LEFT`
for good (`Inv.active`). Writers therefore write to `RIGHT`, apart from the last part of
`tm_commit`, which writes to the active copy after it has waited for the readers that
were there. A reader that registers after that wait reads a copy that is being written.

Readers and writers are separated in the runs in which no reader registers while a
committing writer brings the copy up to date (`quietSync`).
-/

namespace Rust.LeftRight

open Transition

namespace Pc

/-- A reader between its successful registration on a copy and its deregistration. -/
def registered : Pc → Copy → Bool
  | .readMap _ _ active, c | .readSub _ _ active _, c => activeCopy active = c
  | _, _ => false

def counted : Pc → Copy → Bool
  | .readCheck _ _ seen, c | .readBack _ _ seen, c => activeCopy seen = c
  | pc, c => pc.registered c

def mutates : Pc → Copy → Bool
  | .writeMap _ _ _ inactive _, c | .abortUndo inactive (_ :: _), c => inactive = c
  | .commitSyncWrite activeWasLeft .., c => dst activeWasLeft = c
  | _, _ => false

/-- A committing writer that has waited for the readers of a copy and brings the copy
up to date. -/
def syncs : Pc → Copy → Bool
  | .commitSyncRead activeWasLeft .., c | .commitSyncWrite activeWasLeft .., c =>
      dst activeWasLeft = c
  | _, _ => false

/-- What a thread has seen of `ACTIVE`, which is always false. -/
def sawLeft : Pc → Bool
  | .writeOld _ _ _ inactive | .writeMap _ _ _ inactive _ | .abortUndo inactive _ =>
      inactive = .right
  | .commitFlip activeWasLeft _ | .commitDrain activeWasLeft _
  | .commitSyncRead activeWasLeft .. | .commitSyncWrite activeWasLeft .. => activeWasLeft
  | .readAdd _ _ seen | .readCheck _ _ seen | .readBack _ _ seen | .readMap _ _ seen
  | .readSub _ _ seen _ => !seen
  | _ => true

end Pc

theorem syncs_of_mutates {pc : Pc} (hsaw : pc.sawLeft = true) (h : pc.mutates .left = true) :
    pc.syncs .left = true := by
  cases pc with
  | abortUndo inactive rest => cases rest <;> simp_all [Pc.sawLeft, Pc.mutates]
  | _ => simp_all [Pc.sawLeft, Pc.mutates, Pc.syncs]

variable {T : Type}

/-- No copy is read by one thread and changed by another. -/
def Separated (s : Threads Shared Tx T) : Prop :=
  ∀ t u c, (s.tx t).pc.registered c = true → (s.tx u).pc.mutates c = false

/-- No reader completes its registration on a copy while a committing writer brings
that copy up to date. -/
def quietSync (s : Threads Shared Tx T) (l : T × Call) (s' : Threads Shared Tx T) : Prop :=
  ∀ c, (s.tx l.1).pc.registered c = false → (s'.tx l.1).pc.registered c = true →
    ∀ u, (s.tx u).pc.syncs c = false

instance [Fintype T] (s : Threads Shared Tx T) (l : T × Call) (s' : Threads Shared Tx T) :
    Decidable (quietSync s l s') :=
  haveI : Fintype Copy := ⟨{.left, .right}, fun c => by cases c <;> decide⟩
  inferInstanceAs (Decidable (∀ _ : Copy, _ → _ → ∀ _ : T, _))

section Next

variable {σ σ' : Shared} {x x' : Tx} {c : Call}

/-- A thread starts a call, or makes the next access of the function it is in. -/
theorem next_cases (h : next σ x c = some (σ', x')) :
    (x.pc = .idle ∧ σ' = σ ∧ x.call c = some x') ∨
      σ' = (access σ x).1 ∧ x' = (access σ x).2 := by
  unfold next at h
  split at h
  · next hpc =>
      obtain ⟨x₁, hx₁, rfl, rfl⟩ := map_pair_eq h
      exact .inl ⟨hpc, rfl, hx₁⟩
  · exact .inr (pair_eq h.symm)
  · cases h

theorem call_pc (hpc : x.pc = .idle) (h : x.call c = some x') :
    x'.pc.sawLeft = true ∧ (∀ d, x'.pc.counted d = false) ∧ ∀ d, x'.pc.syncs d = false := by
  cases c with
  | begin =>
      obtain rfl := Option.some.inj h
      simp [hpc, Pc.counted, Pc.registered, Pc.syncs, Pc.sawLeft]
  | read a w =>
      obtain rfl := Option.some.inj h
      unfold Tx.readWordBytes
      split <;> simp [hpc, Pc.counted, Pc.registered, Pc.syncs, Pc.sawLeft]
  | write a v w =>
      obtain rfl := Option.some.inj h
      unfold Tx.writeWord
      split <;> simp [Pc.counted, Pc.registered, Pc.syncs, Pc.sawLeft]
  | commit =>
      obtain rfl := Option.some.inj h
      unfold Tx.tmCommit
      split <;> simp [Pc.counted, Pc.registered, Pc.syncs, Pc.sawLeft]
  | abort =>
      obtain rfl := Option.some.inj h
      unfold Tx.tmAbort
      split <;> simp [Pc.counted, Pc.registered, Pc.syncs, Pc.sawLeft]
  | tau => cases h

theorem readDone_pc (x : Tx) (a : Addr) (w : Width) (val : Option Word) :
    (x.readDone a w val).pc = .idle ∨ (x.readDone a w val).pc = .readMem a w := by
  cases val with
  | none => exact .inr rfl
  | some v => exact .inl rfl

theorem access_saw (hσ : σ.active = false) (hx : x.pc.sawLeft = true) :
    (access σ x).1.active = false ∧ (access σ x).2.pc.sawLeft = true := by
  cases hpc : x.pc with
  | readSub a w active val =>
      refine ⟨by simpa [access, hpc, Shared.setReaders] using hσ, ?_⟩
      simp only [access, hpc]
      rcases readDone_pc x a w val with h | h <;> simp [h, Pc.sawLeft]
  | abortUndo inactive rest | commitMem rest =>
      cases rest <;> simp_all [access, Pc.sawLeft, Shared.setMap]
  | commitSyncRead activeWasLeft rest ws =>
      cases rest with
      | nil => simp_all [access, Pc.sawLeft]
      | cons e rest =>
          simp only [access, hpc]
          split <;> simp_all [Pc.sawLeft]
  | writeCas | commitDrain | release | readCheck =>
      simp only [access, hpc]
      split <;> simp_all [Pc.sawLeft]
  | _ => simp_all [access, Pc.sawLeft, inactiveCopy, Shared.setMap, Shared.setReaders]

theorem access_count (hx : x.pc.sawLeft = true) :
    ((access σ x).2.pc.counted .left = x.pc.counted .left ∧
      (access σ x).1.readers .left = σ.readers .left) ∨
    (x.pc.counted .left = false ∧ (access σ x).2.pc.counted .left = true ∧
      (access σ x).1.readers .left = σ.readers .left + 1) ∨
    (x.pc.counted .left = true ∧ (access σ x).2.pc.counted .left = false ∧
      (access σ x).1.readers .left = σ.readers .left - 1) := by
  cases hpc : x.pc with
  | readAdd a w seen =>
      obtain rfl : seen = false := by simpa [hpc, Pc.sawLeft] using hx
      exact .inr (.inl ⟨rfl, by simp [access, hpc, Pc.counted, activeCopy],
        by simp [access, hpc, Shared.setReaders, activeCopy]⟩)
  | readBack a w seen =>
      obtain rfl : seen = false := by simpa [hpc, Pc.sawLeft] using hx
      exact .inr (.inr ⟨rfl, by simp [access, hpc, Pc.counted, Pc.registered],
        by simp [access, hpc, Shared.setReaders, activeCopy]⟩)
  | readSub a w active val =>
      obtain rfl : active = false := by simpa [hpc, Pc.sawLeft] using hx
      refine .inr (.inr ⟨rfl, ?_, by simp [access, hpc, Shared.setReaders, activeCopy]⟩)
      simp only [access, hpc]
      rcases readDone_pc x a w val with h | h <;> simp [h, Pc.counted, Pc.registered]
  | readCheck a w seen =>
      refine .inl ⟨?_, by simp [access, hpc]⟩
      simp only [access, hpc]
      split <;> simp [Pc.counted, Pc.registered]
  | abortUndo inactive rest | commitMem rest =>
      left
      cases rest <;> simp [access, hpc, Pc.counted, Pc.registered, Shared.setMap]
  | commitSyncRead activeWasLeft rest ws =>
      left
      cases rest with
      | nil => simp [access, hpc, Pc.counted, Pc.registered]
      | cons e rest =>
          simp only [access, hpc]
          split <;> simp [Pc.counted, Pc.registered]
  | writeCas | commitDrain | release =>
      left
      simp only [access, hpc]
      split <;> simp [hpc, Pc.counted, Pc.registered]
  | _ => exact .inl (by simp [access, hpc, Pc.counted, Pc.registered, Shared.setMap])

theorem access_syncs {d : Copy} (hd : x.pc.syncs d = false)
    (hd' : (access σ x).2.pc.syncs d = true) : σ.readers d = 0 := by
  cases hpc : x.pc with
  | commitDrain activeWasLeft ws =>
      simp only [access, hpc] at hd'
      split at hd'
      · simp [hpc, Pc.syncs] at hd'
      · next hzero =>
          obtain rfl : dst activeWasLeft = d := by simpa [Pc.syncs] using hd'
          omega
  | abortUndo inactive rest | commitMem rest =>
      cases rest <;> simp [access, hpc, Pc.syncs] at hd'
  | commitSyncRead activeWasLeft rest ws =>
      cases rest with
      | nil => simp [access, hpc, Pc.syncs] at hd'
      | cons e rest =>
          simp only [access, hpc] at hd'
          split at hd' <;> simp_all [Pc.syncs]
  | readSub a w active val =>
      simp only [access, hpc] at hd'
      rcases readDone_pc x a w val with h | h <;> simp [h, Pc.syncs] at hd'
  | writeCas | readCheck =>
      simp only [access, hpc] at hd'
      split at hd' <;> simp [hpc, Pc.syncs] at hd'
  | _ => simp_all [access, Pc.syncs]

end Next

structure Inv (s : Threads Shared Tx T) : Prop where
  active : s.shared.active = false
  saw : ∀ t, (s.tx t).pc.sawLeft = true
  count : s.Counts (fun x => x.pc.counted .left = true) (s.shared.readers .left)

theorem Inv.init (m₀ : Addr → BitVec 8) : Inv (init T m₀) where
  active := rfl
  saw _ := rfl
  count := .zero_of_forall fun _ => Bool.false_ne_true

variable [DecidableEq T] {s s' : Threads Shared Tx T} {l : T × Call}

theorem Inv.step (h : Inv s) (hs : step s l = some s') : Inv s' := by
  obtain ⟨σ, x, hnext, rfl⟩ := Threads.step_eq_some hs
  rcases next_cases hnext with ⟨hpc, rfl, hcall⟩ | ⟨rfl, rfl⟩
  · obtain ⟨hsaw, hcount, -⟩ := call_pc hpc hcall
    refine ⟨h.active, ?_, h.count.put_same ?_⟩
    · exact Threads.forall_put (P := fun _ (x : Tx) => x.pc.sawLeft = true) hsaw fun u _ => h.saw u
    · rw [hcount, hpc]
      rfl
  · obtain ⟨hactive, hsaw⟩ := access_saw h.active (h.saw l.1)
    refine ⟨hactive, ?_, ?_⟩
    · exact Threads.forall_put (P := fun _ (x : Tx) => x.pc.sawLeft = true) hsaw fun u _ => h.saw u
    · rw [Threads.put_shared]
      rcases access_count (σ := s.shared) (h.saw l.1) with
        ⟨hc, hr⟩ | ⟨hc, hc', hr⟩ | ⟨hc, hc', hr⟩
      · rw [hr]
        exact h.count.put_same (by rw [hc])
      · rw [hr]
        exact h.count.put_in (by simp [hc]) hc'
      · rw [hr]
        exact h.count.put_out hc (by simp [hc'])

theorem Inv.run {ok : Threads Shared Tx T → T × Call → Threads Shared Tx T → Prop}
    {m₀ : Addr → BitVec 8} (h : Run LeftRight.step ok (LeftRight.init T m₀) s) : Inv s :=
  h.induction_on (.init m₀) fun _ _ _ _ hinv hs _ => hinv.step hs

/-- No reader of the active copy is there while a writer brings it up to date. -/
def SyncAlone (s : Threads Shared Tx T) : Prop :=
  ∀ t u, (s.tx t).pc.registered .left = true → (s.tx u).pc.syncs .left = false

omit [DecidableEq T] in
/-- A step by which a writer begins to bring the active copy up to date finds no
reader of it. -/
theorem Inv.not_registered (h : Inv s) {σ : Shared} {x : Tx}
    (hnext : next s.shared (s.tx l.1) l.2 = some (σ, x))
    (hnew : (s.tx l.1).pc.syncs .left = false) (hx : x.pc.syncs .left = true) (t : T) :
    (s.tx t).pc.registered .left = false := by
  rcases next_cases hnext with ⟨hpc, rfl, hcall⟩ | ⟨rfl, rfl⟩
  · simp [(call_pc hpc hcall).2.2] at hx
  · have hzero := h.count
    rw [access_syncs hnew hx] at hzero
    have hcounted := hzero.not_of_zero t
    cases hpc : (s.tx t).pc <;> simp_all [Pc.registered, Pc.counted]

theorem SyncAlone.step (h : SyncAlone s) (hinv : Inv s) (hs : step s l = some s')
    (hok : quietSync s l s') : SyncAlone s' := by
  obtain ⟨σ, x, hnext, rfl⟩ := Threads.step_eq_some hs
  intro t u ht
  by_cases hold : (s.tx t).pc.registered .left = true
  · by_cases hu : u = l.1
    · subst hu
      rw [Threads.put_tx_self]
      cases hx : x.pc.syncs .left with
      | false => rfl
      | true => simp [hinv.not_registered hnext (h t _ hold) hx t] at hold
    · rw [Threads.put_tx_of_ne hu]
      exact h t u hold
  · -- the reader that has just registered is the thread that moves
    obtain rfl : t = l.1 := by
      by_contra hne
      exact hold (by rwa [Threads.put_tx_of_ne hne] at ht)
    by_cases hu : u = l.1
    · subst hu
      cases hpc : ((s.put l.1 σ x).tx l.1).pc <;> simp_all [Pc.registered, Pc.syncs]
    · rw [Threads.put_tx_of_ne hu]
      exact hok .left (by simpa using hold) ht u

theorem SyncAlone.run {m₀ : Addr → BitVec 8}
    (h : Run LeftRight.step quietSync (init T m₀) s) : SyncAlone s :=
  h.induction_on (fun _ _ ht => by cases ht) fun _ _ _ hr hsync hs hok =>
    hsync.step (Inv.run hr) hs hok

end Rust.LeftRight
