import Mathlib.Data.List.Permutation
import ClangTM.Serial.Trace

/-!
# Serializability

A set of transactions is serializable if some order of them is a serial run. Two
transactions that each read a word before the other has written it are not (write skew), nor
is a reader of two words that sees half of what one transaction wrote. In a serial run no
update is lost.
-/

namespace Serial

variable {A V : Type*} [DecidableEq A] {m : A → V}

/-- Some order of the transactions is a serial run from `m`. -/
def Serializable (m : A → V) (ts : List (Trace A V)) : Prop :=
  ∃ ts', ts'.Perm ts ∧ ∃ m', SerialRun m ts' m'

/-- Write skew: each of the two has read what the other one overwrites. -/
theorem not_serializable_of_skew {a b : A} {v w : V} (hv : m a ≠ v) (hw : m b ≠ w) :
    ¬Serializable m [[.write b w, .read a (m a)], [.write a v, .read b (m b)]] := by
  rintro ⟨ts, hperm, m', hrun⟩
  rcases List.perm_pair.1 hperm with rfl | rfl
  · have hread : final m [.write b w, .read a (m a)] b = m b := hrun.2.1.1
    exact hw (hread.symm.trans (Function.update_self _ _ _))
  · have hread : final m [.write a v, .read b (m b)] a = m a := hrun.2.1.1
    exact hv (hread.symm.trans (Function.update_self _ _ _))

/-- A torn read: one of two words that are written together has the new value, the other one
the old value. -/
theorem not_serializable_of_torn {a b : A} {v w : V} (hv : m a ≠ v) (hw : m b ≠ w) :
    ¬Serializable m [[.write b w, .write a v], [.read a v, .read b (m b)]] := by
  rintro ⟨ts, hperm, m', hrun⟩
  rcases List.perm_pair.1 hperm with rfl | rfl
  · have hread : final m [.write b w, .write a v] b = m b := hrun.2.1.2.1
    exact hw (hread.symm.trans (Function.update_self _ _ _))
  · exact hv hrun.1.1

/-- A lost update: two transactions have read a word with the same value and changed it. -/
theorem not_serializable_of_lost {a : A} {v w : V} (hvw : w ≠ v) :
    ¬Serializable m [[.write a w, .read a v], [.write a w, .read a v]] := by
  rintro ⟨ts, hperm, m', hrun⟩
  obtain rfl : ts = [[.write a w, .read a v], [.write a w, .read a v]] := by
    simpa using List.perm_pair.1 hperm
  have hread : final m [.write a w, .read a v] a = v := hrun.2.1.1
  exact hvw (((Function.update_self _ _ _).symm.trans hread))

/-- Transactions that read a word and write `f` of what they read are not lost. -/
theorem SerialRun.eq_iterate {m m' : A → V} {ts : List (Trace A V)} (h : SerialRun m ts m') {a : A}
    {f : V → V} (hts : ∀ t ∈ ts, lastWrite t a = none ∨ ∃ v, t = [.write a (f v), .read a v]) :
    m' a = f^[ts.countP fun t => (lastWrite t a).isSome] (m a) := by
  induction ts generalizing m with
  | nil =>
      obtain rfl : m = m' := h
      rfl
  | cons t ts ih =>
      have hrest := ih h.2 fun u hu => hts u (List.mem_cons_of_mem t hu)
      rcases hts t List.mem_cons_self with hnone | ⟨v, rfl⟩
      · rw [hrest, final_of_none hnone, List.countP_cons_of_neg (by simp [hnone])]
      · have hread : m a = v := h.1.1
        have hlast : lastWrite [.write a (f v), .read a v] a =
            some (f v) := by simp [lastWrite_write]
        rw [hrest, final_of_some hlast, List.countP_cons_of_pos (by simp [hlast]),
          Function.iterate_succ_apply, hread]

end Serial
