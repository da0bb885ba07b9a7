import Mathlib.Logic.Function.Iterate
import ClangTM.Serial.Trace

/-!
# Transactions in the order of their commits

`RunsWith P m ts m'` says that running the transactions `ts` one after another leads from `m` to
`m'`, and that each of them satisfies `P` at the memory it finds. With `Legal` for `P` this is a
serial run. `LegalOwn` is weaker: it is about the words that a transaction both reads from memory
and writes, which is what it takes not to lose updates. A transaction without writes that is not
part of the order can still have read what was in memory between two of the commits.
-/

namespace Serial

variable {A V : Type*} [DecidableEq A]

/-- Transactions run one after another, each with the property `P`. -/
def RunsWith (P : (A → V) → Trace A V → Prop) (m : A → V) : List (Trace A V) → (A → V) → Prop
  | [], m' => m = m'
  | t :: ts, m' => P m t ∧ RunsWith P (final m t) ts m'

variable {P : (A → V) → Trace A V → Prop} {m m' : A → V} {ts : List (Trace A V)} {t : Trace A V}

theorem RunsWith.append (h : RunsWith P m ts m') (ht : P m' t) :
    RunsWith P m (ts ++ [t]) (final m' t) := by
  induction ts generalizing m with
  | nil =>
      obtain rfl : m = m' := h
      exact ⟨ht, rfl⟩
  | cons u ts ih => exact ⟨h.1, ih h.2⟩

theorem RunsWith.serialRun (h : RunsWith Legal m ts m') : SerialRun m ts m' := by
  induction ts generalizing m with
  | nil => exact h
  | cons u ts ih => exact ⟨h.1, ih h.2⟩

/-- What a transaction reads of the words it writes is there. -/
def LegalOwn (m : A → V) (t : Trace A V) : Prop :=
  ∀ p ∈ external t, lastWrite t p.1 ≠ none → m p.1 = p.2

/-- Transactions that change a word to `f` of what they have read are not lost. -/
theorem RunsWith.eq_iterate (h : RunsWith LegalOwn m ts m') {a : A} {f : V → V}
    (hts : ∀ t ∈ ts, lastWrite t a = none ∨
      ∃ v, (a, v) ∈ external t ∧ lastWrite t a = some (f v)) :
    m' a = f^[ts.countP fun t => (lastWrite t a).isSome] (m a) := by
  induction ts generalizing m with
  | nil =>
      obtain rfl : m = m' := h
      rfl
  | cons t ts ih =>
      have hrest := ih h.2 fun u hu => hts u (List.mem_cons_of_mem t hu)
      rcases hts t List.mem_cons_self with hnone | ⟨v, hread, hwrite⟩
      · rw [hrest, final_of_none hnone, List.countP_cons_of_neg (by simp [hnone])]
      · have hv : m a = v := h.1 (a, v) hread (by simp [hwrite])
        rw [hrest, final_of_some hwrite, List.countP_cons_of_pos (by simp [hwrite]),
          Function.iterate_succ_apply, hv]

/-- A committed transaction without writes: how many transactions had committed when it began
and when it ended, and whether nothing it had read had changed when it ended. -/
structure ReadOnly (A V : Type*) where
  begun : ℕ
  ended : ℕ
  ops : Trace A V
  settled : Bool

/-- A transaction without writes that has read from one memory between its begin and its end. -/
def Coexisted (m : A → V) (log : List (Trace A V)) (r : ReadOnly A V) : Prop :=
  ∃ k, r.begun ≤ k ∧ k ≤ r.ended ∧ k ≤ log.length ∧
    ∃ m', SerialRun m (log.take k) m' ∧ Legal m' r.ops

theorem Coexisted.append {log : List (Trace A V)} {r : ReadOnly A V} (h : Coexisted m log r)
    (t : Trace A V) : Coexisted m (log ++ [t]) r := by
  obtain ⟨k, hbegun, hended, hle, hlegal⟩ := h
  refine ⟨k, hbegun, hended, by simp; omega, ?_⟩
  rw [List.take_append_of_le_length hle]
  exact hlegal

end Serial
