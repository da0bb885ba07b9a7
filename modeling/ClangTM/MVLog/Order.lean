import Mathlib.Data.Fintype.Basic
import ClangTM.MVLog.StoreRun

/-!
# The commit order of the C++ multi-version log

A commit of `MVLog.hpp` waits for every smaller slot to be resolved before it publishes, so
that the transactions publish in the order of their slots, the index only moves to greater
slots, and the fold of a reclamation, which stores the write sets again in the order of their
slots, leaves the value of the writer that published last.

All of this rests on what the wait takes for resolved. A slot is claimed by a `fetch_add` and
its log entry is tagged and marked in progress by two further stores; in between the entry
looks free, and the wait passes over it. Ring entries are handed to later slots without regard
to the slots they stand for. And the fold stores the write sets of the window also to the
cells that the committer has just written. In the runs in which none of this happens,
`Ordered`, the three properties hold.
-/

namespace MVLog

open Serial Transition

section Run

variable {T : Type} [DecidableEq T] {port : Port} {m₀ : CellAddr → Word}
  {s : Threads (Shared T) Tx T} {t : T} {σ : Shared T} {x : Tx}

omit [DecidableEq T] in
theorem gIndex_access (hacc : access port t s.shared (s.tx t) = some (σ, x)) :
    σ.gIndex = s.shared.gIndex ∨
      ∃ w rest, (s.tx t).pc = .pubIndex (w :: rest) ∧
        σ.gIndex = Function.update s.shared.gIndex w.1 (some (s.tx t).slot) := by
  unfold access at hacc
  cases hpc : (s.tx t).pc with
  | pubIndex rest =>
      rw [hpc] at hacc
      obtain ⟨w, hw, rfl, rfl⟩ := map_pair_eq hacc
      obtain ⟨rest, rfl⟩ := List.head?_eq_some_iff.1 hw
      exact .inr ⟨w, rest, rfl, rfl⟩
  | out | body =>
      rw [hpc] at hacc
      cases hacc
  | lock =>
      rw [hpc] at hacc
      have hacc := Option.some.inj hacc
      unfold acquire at hacc
      split at hacc
      · obtain ⟨rfl, rfl⟩ := Prod.mk.inj hacc
        exact .inl rfl
      · obtain ⟨rfl, rfl⟩ := Prod.mk.inj hacc
        exact .inl rfl
  | foldMem n len i a v =>
      rw [hpc] at hacc
      obtain ⟨rfl, rfl⟩ := pair_eq hacc
      rw [foldStore_eq]
      exact .inl rfl
  | foldRest n rest =>
      rw [hpc] at hacc
      obtain ⟨w, hw, rfl, rfl⟩ := map_pair_eq hacc
      rw [foldStore_eq]
      exact .inl rfl
  | pubAddr | pubVal | pubMem | dirtyFirst | dirtySecond =>
      rw [hpc] at hacc
      obtain ⟨w, hw, rfl, rfl⟩ := map_pair_eq hacc
      exact .inl rfl
  | _ =>
      rw [hpc] at hacc
      obtain ⟨rfl, rfl⟩ := pair_eq hacc
      exact .inl rfl

omit [DecidableEq T] in
theorem gIndex_mono (hslot : SlotInv port s) (hst : StoreInv port m₀ s) {c : TmCall CellAddr}
    (hnext : next port t s.shared (s.tx t) c = some (σ, x)) {a : CellAddr} {p : ℕ}
    (hp : s.shared.gIndex a = some p) : ∃ q, σ.gIndex a = some q ∧ p ≤ q := by
  rcases next_eq_some hnext with ⟨rfl, hacc⟩ | ⟨rfl, -⟩
  · rcases gIndex_access hacc with heq | ⟨w, rest, hpc, heq⟩
    · exact ⟨p, heq ▸ hp, le_rfl⟩
    · rw [heq]
      by_cases ha : a = w.1
      · subst ha
        refine ⟨(s.tx t).slot, Function.update_self _ _ _, ?_⟩
        have hdone : (s.tx t).pc.phase = .done := by rw [hpc]; rfl
        obtain ⟨-, hstored⟩ := stored_of_holding hslot hst (t := t) (by rw [hdone]; rfl)
        obtain ⟨vs, hhead⟩ := hstored.head hdone
        have hindex := hstored.index.eq w.1
        have hun : (s.tx t).pc.unindexed = w :: rest := by rw [hpc]; rfl
        rw [hun, if_pos (by simp [lookup_cons_eq]), hhead] at hindex
        have hp' : (latest vs w.1).map Prod.fst = some p := hindex.symm.trans hp
        obtain ⟨e, he, rfl⟩ := Option.map_eq_some_iff.1 hp'
        obtain ⟨ws, hmem, -⟩ := mem_of_latest (p := e.1) (v := e.2) he
        have hsorted : (s.shared.store.pubs.map Prod.fst).Pairwise (· > ·) := hslot.book.sorted
        rw [hhead, List.map_cons, List.pairwise_cons] at hsorted
        exact (hsorted.1 e.1 (List.mem_map_of_mem hmem)).le
      · exact ⟨p, (Function.update_of_ne ha _ _).trans hp, le_rfl⟩
  · exact ⟨p, hp, le_rfl⟩

end Run

def taus {T : Type} (t : T) (n : ℕ) : List (T × TmCall CellAddr) := List.replicate n (t, .tau)

def begins {T : Type} (t : T) : List (T × TmCall CellAddr) := (t, .begin) :: taus t 3

end MVLog
