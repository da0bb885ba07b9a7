import Mathlib.Data.Fintype.Basic
import ClangTM.Serial.Serializable
import ClangTM.TscTM.Steps

/-!
# When the update transactions of TSC-TM are serializable

The timestamps are not needed: whatever the counter returns, the versions of a guard grow, and
a transaction takes its place in the serial order when it holds the guards of all it writes.

`abort_tx` breaks this. It clears the lock bit of the guard of every entry of the write set,
though a transaction that has not come to `commit` holds none of them, and so takes away the
lock of a transaction that is committing. In the runs in which each of these releases finds its
guard unlocked, and in which the version of no guard wraps, the update transactions have a
serial order.
-/

namespace TscTM

open Serial Transition Certify TL2

section Run

variable {T : Type} [DecidableEq T] {m₀ : CellAddr → Word} {s s' : Threads (Shared T) Tx T}
  {l : T × Call}

theorem inv_init (m₀ : CellAddr → Word) : (backend T).Inv m₀ (init T m₀) where
  proto := .init (fun _ => Nat.zero_le _) (fun _ => rfl) rfl fun _ => rfl
  shape := ⟨⟨fun _ => by simp [init, backend, Book.empty, isLocked_eq],
    fun _ => by simp [init, backend, Book.empty, guardVersion]⟩, trivial⟩
  tx t := ⟨⟨fun ℓ => by simp [init, Design.view, Phased.design, Backend.phased, backend,
    TL2.Tx.loc, Pc.core, held, Book.empty], .nil, rfl, rfl, rfl⟩,
    ⟨fun hp => absurd rfl hp, trivial⟩, (by decide : (0 : Word).toNat < 2 ^ 62),
    fun _ hℓ => absurd hℓ List.not_mem_nil⟩
  mem _ := .inl rfl

theorem good_of_step (h : (backend T).Inv m₀ s) (hs : step s l = some s')
    (hok : Careful s l s') : ∃ σ x, s' = s.put l.1 σ x ∧ (backend T).Good m₀ s l.1 σ x := by
  obtain ⟨σ, x, hnext, rfl⟩ := Threads.step_eq_some hs
  exact ⟨σ, x, rfl, next_good h hnext hok⟩

theorem inv_run (hr : Run step Careful (init T m₀) s) : (backend T).Inv m₀ s := by
  refine hr.induction_on (inv_init m₀) fun s₁ l s₂ _ h hs hok => ?_
  obtain ⟨σ, x, rfl, hgood⟩ := good_of_step h hs hok
  exact hgood.inv h

theorem guardVersion_eq (h : (backend T).Inv m₀ s) (ℓ : GuardIdx) :
    (guardVersion (s.shared.gGuards ℓ)).toNat = s.shared.book.ver ℓ :=
  h.shape.1.ver ℓ

theorem version_le (h : (backend T).Inv m₀ s) (hs : step s l = some s')
    (hok : Careful s l s') (ℓ : GuardIdx) :
    (guardVersion (s.shared.gGuards ℓ)).toNat ≤ (guardVersion (s'.shared.gGuards ℓ)).toNat := by
  obtain ⟨σ, x, rfl, hgood⟩ := good_of_step h hs hok
  rw [guardVersion_eq h, guardVersion_eq (hgood.inv h)]
  exact hgood.moves.ver_le ℓ

/-- A guard that is unlocked by a step was locked by the thread that makes the step. -/
theorem owner_of_unlocked (h : (backend T).Inv m₀ s) (hs : step s l = some s')
    (hok : Careful s l s') {ℓ : GuardIdx} (hlocked : isLocked (s.shared.gGuards ℓ) = true)
    (hfree : isLocked (s'.shared.gGuards ℓ) = false) : s.shared.book.owner ℓ = some l.1 := by
  obtain ⟨σ, x, rfl, hgood⟩ := good_of_step h hs hok
  obtain ⟨u, hu⟩ := Option.ne_none_iff_exists'.1 ((h.shape.1.locked ℓ).1 hlocked)
  by_contra hne
  have hut : u ≠ l.1 := fun heq => hne (heq ▸ hu)
  have hkept : σ.book.owner ℓ = some u := (hgood.moves.owner_iff hut ℓ).2 hu
  have hstill := ((hgood.inv h).shape.1.locked ℓ).2 (by
    show σ.book.owner ℓ ≠ none
    simp [hkept])
  cases hfree.symm.trans hstill

theorem version_lt_of_release (h : (backend T).Inv m₀ s) (hs : step s l = some s')
    (hok : Careful s l s') {ℓ : GuardIdx} {rest : List GuardIdx}
    (hpc : (s.tx l.1).pc = .release (ℓ :: rest)) :
    (guardVersion (s.shared.gGuards ℓ)).toNat < (guardVersion (s'.shared.gGuards ℓ)).toNat := by
  have hown := (h.tx l.1).2.2
  obtain ⟨σ, x, hnext, rfl⟩ := Threads.step_eq_some hs
  have hrel : release s.shared (s.tx l.1) ℓ rest = (σ, x) := by
    cases hc : l.2 with
    | tau => simpa [next, hpc, hc] using hnext
    | _ => simp [next, hpc, hc] at hnext
  obtain rfl := congrArg Prod.fst hrel
  show _ < (guardVersion (Function.update s.shared.gGuards ℓ _ ℓ)).toNat
  rw [Function.update_self, guardVersion_eq h,
    show s.shared.book.ver ℓ = _ from hown.acq ℓ (by rw [hpc]; exact List.mem_cons_self)]
  exact newVersion_gt (hok.2 ℓ (by simp [released, hpc])) hown.stamp

/-- In a careful run, for any timestamps: the update transactions that have committed are a
serial run, which leads to memory at every word whose guard is not locked; a transaction that
is about to return true is one of them; every release of a commit makes the version of the
guard larger, and no step makes one smaller; and a step unlocks only guards that its own thread
has locked. -/
theorem update_serial_of_careful (m₀ : CellAddr → Word)
    (hr : Run step Careful (init T m₀) s) :
    (∃ m, SerialRun m₀ (schedule s.shared.book.log [] s.shared.book.clock) m ∧
      ∀ a, isLocked (s.shared.gGuards (getGuardIdx a)) = false → s.shared.mem a = m a) ∧
    (∀ t rest, (s.tx t).pc = .release rest →
      ∃ c, s.shared.book.log c = some (s.tx t).hist.trace) ∧
    ∀ l s', step s l = some s' → Careful s l s' → ∀ ℓ,
      (guardVersion (s.shared.gGuards ℓ)).toNat ≤ (guardVersion (s'.shared.gGuards ℓ)).toNat ∧
      (ℓ ∈ released (s.tx l.1).pc → (guardVersion (s.shared.gGuards ℓ)).toNat <
        (guardVersion (s'.shared.gGuards ℓ)).toNat) ∧
      (isLocked (s.shared.gGuards ℓ) = true → isLocked (s'.shared.gGuards ℓ) = false →
        s.shared.book.owner ℓ = some l.1) := by
  have h := inv_run hr
  refine ⟨Backend.serial h, fun t rest hpc => ?_, fun l s' hs hok ℓ =>
    ⟨version_le h hs hok ℓ, fun hrel => ?_, owner_of_unlocked h hs hok⟩⟩
  · have hdone := ((h.tx t).1.hereAt (p := .writing [])
      (congrArg (fun pc => phase (Pc.core pc)) hpc)).1
    obtain ⟨c, -, hlog⟩ := h.proto.committed t hdone
    exact ⟨c, hlog⟩
  · unfold released at hrel
    split at hrel
    · next k rest hpc =>
        obtain rfl := List.mem_singleton.1 hrel
        exact version_lt_of_release h hs hok hpc
    · cases hrel

end Run

def stampOf (n : Fin 16) : Timestamp := ⟨BitVec.ofNat 64 n, by
  have := n.isLt
  rw [BitVec.toNat_ofNat]
  omega⟩

def readWrite (t : Fin 3) : List (Fin 3 × Call) :=
  [(t, .begin (stampOf 5)), (t, .read firstCell), (t, .tau), (t, .tau), (t, .write firstCell 1)]

def thenCommit (t : Fin 3) : List (Fin 3 × Call) :=
  [(t, .commit), (t, .tau), (t, .tau), (t, .timestamp (stampOf 3)), (t, .tau)]

def thenRelease (t : Fin 3) : List (Fin 3 × Call) := [(t, .tau), (t, .tau)]

/-- The counter goes backwards, and the second transaction commits with the version it found
plus one. -/
theorem update_serial_of_careful_two : ∃ s : Threads (Shared (Fin 3)) Tx (Fin 3),
    Run step Careful (init (Fin 3) fun _ => 0) s ∧
      s.shared.book.log 1 = some [.write firstCell 1, .read firstCell 0] ∧
      s.shared.book.log 2 = some [.write firstCell 1, .read firstCell 1] ∧
      guardVersion (s.shared.gGuards (getGuardIdx firstCell)) = 4 ∧
      ∃ m, SerialRun (fun _ => 0) (schedule s.shared.book.log [] s.shared.book.clock) m := by
  obtain ⟨s, hr, hfirst, hsecond, hver⟩ :
      ∃ s, Run step Careful (init (Fin 3) fun _ => 0) s ∧
        s.shared.book.log 1 = some [.write firstCell 1, .read firstCell 0] ∧
        s.shared.book.log 2 = some [.write firstCell 1, .read firstCell 1] ∧
        guardVersion (s.shared.gGuards (getGuardIdx firstCell)) = 4 :=
    exists_run_of_exec (.flatten [readWrite 0, thenCommit 0, thenRelease 0, readWrite 1,
      thenCommit 1, thenRelease 1]) (by decide +kernel)
  obtain ⟨⟨m, hserial, -⟩, -⟩ := update_serial_of_careful _ hr
  exact ⟨s, hr, hfirst, hsecond, hver, m, hserial⟩

/-- Threads 0, 1 and 2 read the first cell and set it to 1. Thread 0 is at the end of its
validation when thread 1 aborts, which clears the lock bit that thread 0 has set; thread 2
locks the guard, and both commit. -/
theorem lost_update_of_abort : ∃ s₁ s₂ s : Threads (Shared (Fin 3)) Tx (Fin 3),
    Run step anyStep (init (Fin 3) fun _ => 0) s₁ ∧ step s₁ (1, .tau) = some s₂ ∧
      Run step anyStep s₂ s ∧
      s₁.shared.book.owner (getGuardIdx firstCell) = some 0 ∧
      isLocked (s₁.shared.gGuards (getGuardIdx firstCell)) = true ∧
      isLocked (s₂.shared.gGuards (getGuardIdx firstCell)) = false ∧
      (s.tx 0).committed = some true ∧ (s.tx 2).committed = some true ∧
      ¬Serializable (fun _ => 0) (schedule s.shared.book.log [] s.shared.book.clock) := by
  obtain ⟨s₁, hs₁, s₂, hs₂, s, hs, howner, hlocked, hfree, h₀, h₂, hsched⟩ :
      ∃ s₁, exec step anyStep (init (Fin 3) fun _ => 0)
        (readWrite 0 ++ readWrite 1 ++ readWrite 2 ++ thenCommit 0 ++ [(1, .abort)]) = some s₁ ∧
      ∃ s₂, step s₁ (1, .tau) = some s₂ ∧
      ∃ s, exec step anyStep s₂ (thenCommit 2 ++ thenRelease 0 ++ thenRelease 2) = some s ∧
        s₁.shared.book.owner (getGuardIdx firstCell) = some 0 ∧
        isLocked (s₁.shared.gGuards (getGuardIdx firstCell)) = true ∧
        isLocked (s₂.shared.gGuards (getGuardIdx firstCell)) = false ∧
        (s.tx 0).committed = some true ∧ (s.tx 2).committed = some true ∧
        schedule s.shared.book.log [] s.shared.book.clock =
          [[.write firstCell 1, .read firstCell 0], [.write firstCell 1, .read firstCell 0]] :=
    ⟨_, rfl, _, rfl, _, rfl, rfl, rfl, rfl, rfl, rfl, rfl⟩
  refine ⟨s₁, s₂, s, run_of_exec hs₁, hs₂, run_of_exec hs, howner, hlocked, hfree, h₀, h₂, ?_⟩
  rw [hsched]
  exact not_serializable_of_lost (by decide)

end TscTM
