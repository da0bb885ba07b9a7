import ClangTM.Serial.CommitLog

/-!
# Boxes of versions

Every word has a list of versions, newest first, each with a number and a value. `find` is the
first version whose number is not above a given one. `Shows` says that `find` gives, for every
number, the value that the transactions of a log up to that number have left; the words of `late`,
for which the transaction with number `c` has still to add its version, are excepted from `c` on.
-/

namespace Serial

variable {A V : Type*} {c k : ℕ}

/-- The first version with a number up to `c`. -/
def find (c : ℕ) (bs : List (ℕ × V)) : Option (ℕ × V) :=
  bs.find? fun b => b.1 ≤ c

theorem find_cons_of_le (v : V) (bs : List (ℕ × V)) (h : k ≤ c) :
    find c ((k, v) :: bs) = some (k, v) := by
  simp [find, h]

theorem find_cons_of_lt (v : V) (bs : List (ℕ × V)) (h : c < k) :
    find c ((k, v) :: bs) = find c bs := by
  simp [find, Nat.not_le.2 h]

theorem le_of_find {c : ℕ} {bs : List (ℕ × V)} {b : ℕ × V} (h : find c bs = some b) :
    b.1 ≤ c := by
  simpa using List.find?_some h

/-- If the newest version is the one that `find` gave, it still gives it for larger numbers. -/
theorem find_of_head {bs : List (ℕ × V)} {b : ℕ × V} (h : find c bs = some b)
    (hhead : bs.head?.map Prod.fst = some b.1) (hle : c ≤ k) : find k bs = some b := by
  have hb := le_of_find h
  cases bs with
  | nil => cases hhead
  | cons b' bs =>
      obtain ⟨n, v⟩ := b'
      obtain rfl : n = b.1 := Option.some.inj hhead
      rw [find_cons_of_le v bs hb] at h
      rw [find_cons_of_le v bs (hb.trans hle), h]

variable [DecidableEq A]

def Shows (m₀ : A → V) (log : ℕ → Option (Trace A V)) (boxes : A → List (ℕ × V)) (late : List A)
    (c : ℕ) : Prop :=
  ∀ a k, (a ∈ late → k < c) → ∃ n, find k (boxes a) = some (n, memAt m₀ log k a)

variable {m₀ : A → V} {log : ℕ → Option (Trace A V)} {boxes : A → List (ℕ × V)} {late : List A}
  {c : ℕ} {t : Trace A V}

/-- The transaction with number `c` is entered into the log; the words it writes are late. -/
theorem Shows.enter (h : Shows m₀ log boxes [] c) (hc : log c = none)
    (hlate : ∀ a, a ∉ late → lastWrite t a = none) : Shows m₀ (enter log c t) boxes late c := by
  intro a k hk
  obtain ⟨n, hn⟩ := h a k (by simp)
  refine ⟨n, hn.trans ?_⟩
  by_cases ha : a ∈ late
  · rw [memAt_enter_of_lt t (hk ha)]
  · rw [memAt_enter_of_unwritten k hc (hlate a ha)]

/-- The version of a late word is added. -/
theorem Shows.prepend {a : A} {v : V} (h : Shows m₀ log boxes (a :: late) c) (hc : log c = some t)
    (hpos : 0 < c) (habove : ∀ k, c < k → log k = none) (hv : lastWrite t a = some v) :
    Shows m₀ log (Function.update boxes a ((c, v) :: boxes a)) late c := by
  intro b k hk
  by_cases hb : b = a
  · subst hb
    rw [Function.update_self]
    by_cases hkc : k < c
    · rw [find_cons_of_lt v _ hkc]
      exact h b k fun _ => hkc
    · have hsame : memAt m₀ log k b = memAt m₀ log c b := by
        refine memAt_eq_of_unwritten (by omega) fun j u hj _ hu => ?_
        rw [habove j hj] at hu
        cases hu
      rw [find_cons_of_le v _ (by omega), hsame, memAt_pred_of_some hc hpos, final_of_some hv]
      exact ⟨c, rfl⟩
  · rw [Function.update_of_ne hb]
    exact h b k fun hmem => hk ((List.mem_cons.1 hmem).resolve_left hb)

end Serial
