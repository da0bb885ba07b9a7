import ClangTM.Serial.CommitLog

/-!
# Logs of version stamps

A log in which every transaction writes its own version, and nothing else, to the cells it
writes. The memory of such a log at a version is the stamp of every cell at that time: it is not
above the version, it grows, and it says since when the cell has not been written.
-/

namespace Serial

variable {A : Type*} [DecidableEq A] {log : ℕ → Option (Trace A ℕ)}

/-- Every write of the log is of the version of its transaction. -/
def Stamped (log : ℕ → Option (Trace A ℕ)) : Prop :=
  ∀ c t a v, log c = some t → lastWrite t a = some v → v = c

/-- The stamps of the cells at a version. -/
def stampsAt (log : ℕ → Option (Trace A ℕ)) : ℕ → A → ℕ := memAt (fun _ => 0) log

namespace Stamped

variable (h : Stamped log)
include h

/-- What a version does to the stamp of a cell. -/
theorem stampsAt_succ (n : ℕ) (a : A) :
    stampsAt log (n + 1) a = n + 1 ∨ stampsAt log (n + 1) a = stampsAt log n a := by
  cases hl : log (n + 1) with
  | none => exact .inr (congrFun (memAt_succ_of_none hl) a)
  | some t =>
      rw [stampsAt, memAt_succ_of_some hl]
      cases hw : lastWrite t a with
      | none => exact .inr (final_of_none hw)
      | some v =>
          rw [final_of_some hw]
          exact .inl (h _ t a v hl hw)

theorem stampsAt_le (n : ℕ) (a : A) : stampsAt log n a ≤ n := by
  induction n with
  | zero => exact le_rfl
  | succ n ih =>
      rcases h.stampsAt_succ n a with hnew | hold
      · exact hnew.le
      · rw [hold]
        exact Nat.le_succ_of_le ih

theorem stampsAt_mono {m n : ℕ} (hmn : m ≤ n) (a : A) : stampsAt log m a ≤ stampsAt log n a := by
  induction n, hmn using Nat.le_induction with
  | base => exact le_rfl
  | succ n hn ih =>
      rcases h.stampsAt_succ n a with hnew | hold
      · rw [hnew]
        exact (h.stampsAt_le m a).trans (Nat.le_succ_of_le hn)
      · rw [hold]
        exact ih

/-- A cell has had its stamp from that version on. -/
theorem stampsAt_eq_of_le {m n : ℕ} {a : A} (hle : stampsAt log n a ≤ m) (hmn : m ≤ n) :
    stampsAt log m a = stampsAt log n a := by
  induction n, hmn using Nat.le_induction with
  | base => rfl
  | succ n hn ih =>
      rcases h.stampsAt_succ n a with hnew | hold
      · omega
      · rw [hold] at hle ⊢
        exact ih hle

end Stamped

/-- The next version, with its transaction. -/
theorem Stamped.enter (h : Stamped log) {c : ℕ} {t : Trace A ℕ}
    (ht : ∀ a v, lastWrite t a = some v → v = c) : Stamped (enter log c t) := by
  intro d u a v hu hw
  by_cases hd : d = c
  · subst hd
    rw [enter_self] at hu
    obtain rfl := Option.some.inj hu
    exact ht a v hw
  · rw [enter_of_ne _ hd] at hu
    exact h d u a v hu hw

section Lists

variable {B V : Type*} (f : B → A) (g : B → V) (l : List B)

@[simp] theorem lastWrite_reads (a : A) :
    lastWrite (l.map fun b => Op.read (f b) (g b)) a = none := by
  induction l with
  | nil => rfl
  | cons b l ih => exact ih

/-- A transaction that only reads. -/
theorem legal_reads (m : A → V) :
    Legal m (l.map fun b => Op.read (f b) (g b)) ↔ ∀ b ∈ l, m (f b) = g b := by
  induction l with
  | nil => simp [Legal]
  | cons b l ih =>
      rw [List.map_cons, Legal, ih, List.forall_mem_cons, final_of_none (lastWrite_reads f g l _)]

/-- Writes at the end of a transaction. -/
theorem legal_writes_append (m : A → V) (v : V) (t : Trace A V) :
    Legal m ((l.map fun b => Op.write (f b) v) ++ t) ↔ Legal m t := by
  induction l with
  | nil => rfl
  | cons b l ih => exact ih

theorem lastWrite_writes_append (v : V) (t : Trace A V) (a : A) :
    lastWrite ((l.map fun b => Op.write (f b) v) ++ t) a =
      if ∃ b ∈ l, f b = a then some v else lastWrite t a := by
  induction l with
  | nil => simp
  | cons b l ih =>
      rw [List.map_cons, List.cons_append, lastWrite_write, ih]
      by_cases hb : a = f b
      · simp [hb]
      · simp [hb, Ne.symm hb]

end Lists

end Serial
