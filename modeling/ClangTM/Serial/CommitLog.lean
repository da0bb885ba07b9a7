import Mathlib.Algebra.Order.Group.Nat
import ClangTM.Serial.Trace

/-!
# Commit logs

A commit log records, at each version number, the trace of the transaction
that committed with that version, if there is one. `memAt m₀ log c` is the
memory that the transactions with versions up to `c`, run one after another in
version order from `m₀`, leave.

Versions are handed out before their transaction is known to commit, so a
trace can enter the log below versions that are already there; the lemmas on
`memAt` of an extended log say what such a late entry changes. Read-only
transactions have no version of their own: a record `(e, t)` places the trace
`t` between the version `e` and the next one, and `schedule` is the resulting
serial order.
-/

namespace Serial

variable {A V : Type*}

/-- The log with the trace `t` entered at version `c`. -/
def enter (log : ℕ → Option (Trace A V)) (c : ℕ) (t : Trace A V) :
    ℕ → Option (Trace A V) :=
  Function.update log c (some t)

@[grind =] theorem enter_apply (log : ℕ → Option (Trace A V)) (c n : ℕ) (t : Trace A V) :
    enter log c t n = if n = c then some t else log n := by
  simp [enter, Function.update_apply]

@[simp] theorem enter_self (log : ℕ → Option (Trace A V)) (c : ℕ) (t : Trace A V) :
    enter log c t c = some t := by
  simp [enter]

theorem enter_of_ne (log : ℕ → Option (Trace A V)) {c n : ℕ} (h : n ≠ c)
    (t : Trace A V) : enter log c t n = log n := by
  simp [enter, h]

variable [DecidableEq A]

/-- The memory after the transactions with versions up to `c`. -/
def memAt (m₀ : A → V) (log : ℕ → Option (Trace A V)) : ℕ → A → V
  | 0 => m₀
  | c + 1 => final (memAt m₀ log c) ((log (c + 1)).getD [])

variable {m₀ : A → V} {log : ℕ → Option (Trace A V)} {c : ℕ} {t : Trace A V}

theorem memAt_succ_of_none (h : log (c + 1) = none) : memAt m₀ log (c + 1) = memAt m₀ log c := by
  simp [memAt, h]

theorem memAt_succ_of_some (h : log (c + 1) = some t) :
    memAt m₀ log (c + 1) = final (memAt m₀ log c) t := by
  simp [memAt, h]

theorem memAt_pred_of_some (h : log c = some t) (hc : 0 < c) :
    memAt m₀ log c = final (memAt m₀ log (c - 1)) t := by
  obtain ⟨c, rfl⟩ := Nat.exists_eq_succ_of_ne_zero hc.ne'
  exact memAt_succ_of_some h

/-- A word that no transaction with a version in `(lo, hi]` writes. -/
theorem memAt_eq_of_unwritten {a : A} {lo hi : ℕ} (hle : lo ≤ hi)
    (h : ∀ c t, lo < c → c ≤ hi → log c = some t → lastWrite t a = none) :
    memAt m₀ log hi a = memAt m₀ log lo a := by
  induction hi, hle using Nat.le_induction with
  | base => rfl
  | succ n hn ih =>
      have hprev := ih fun c t hlo hhi => h c t hlo (Nat.le_succ_of_le hhi)
      cases hl : log (n + 1) with
      | none => rw [memAt_succ_of_none hl, hprev]
      | some t =>
          rw [memAt_succ_of_some hl, final_of_none (h _ t (by omega) le_rfl hl), hprev]

theorem memAt_enter_of_lt {c n : ℕ} (t : Trace A V) (h : n < c) :
    memAt m₀ (enter log c t) n = memAt m₀ log n := by
  induction n with
  | zero => rfl
  | succ n ih =>
      rw [memAt, memAt, enter_of_ne _ (by omega), ih (by omega)]

/-- A late entry changes nothing at words it does not write. -/
theorem memAt_enter_of_unwritten {a : A} (n : ℕ) (hc : log c = none) (h : lastWrite t a = none) :
    memAt m₀ (enter log c t) n a = memAt m₀ log n a := by
  induction n with
  | zero => rfl
  | succ n ih =>
      by_cases hn : n + 1 = c
      · subst hn
        rw [memAt_succ_of_none hc, memAt_succ_of_some (enter_self _ _ t),
          final_of_none h, ih]
      · rw [memAt, memAt, enter_of_ne _ hn, final_eq_getD, final_eq_getD, ih]

/-- After a late entry a word it writes holds the value written, as long as no
later version writes that word. -/
theorem memAt_enter_of_written {c n : ℕ} {a : A} {v : V} (hc : 0 < c) (hn : c ≤ n)
    (h : lastWrite t a = some v)
    (hlater : ∀ d u, c < d → d ≤ n → log d = some u → lastWrite u a = none) :
    memAt m₀ (enter log c t) n a = v := by
  have hkeep : memAt m₀ (enter log c t) n a = memAt m₀ (enter log c t) c a := by
    refine memAt_eq_of_unwritten hn fun d u hd hdn hu => ?_
    rw [enter_of_ne _ (by omega)] at hu
    exact hlater d u hd hdn hu
  rw [hkeep, memAt_pred_of_some (enter_self _ c t) hc, final_of_some h]

def readOnlyAt (ro : List (ℕ × Trace A V)) (e : ℕ) : List (Trace A V) :=
  (ro.filter fun r => r.1 = e).map Prod.snd

/-- The serial order of a log: the transactions by version, every read-only
transaction right after the version it is placed at. -/
def schedule (log : ℕ → Option (Trace A V)) (ro : List (ℕ × Trace A V)) :
    ℕ → List (Trace A V)
  | 0 => readOnlyAt ro 0
  | c + 1 => schedule log ro c ++ (log (c + 1)).toList ++ readOnlyAt ro (c + 1)

/-- A log whose entries are legal where they stand is a serial run from the
initial memory to `memAt`. -/
theorem schedule_serialRun {ro : List (ℕ × Trace A V)} (n : ℕ)
    (hlog : ∀ c t, 0 < c → c ≤ n → log c = some t → Legal (memAt m₀ log (c - 1)) t)
    (hro : ∀ r ∈ ro, Legal (memAt m₀ log r.1) r.2 ∧ ∀ a, lastWrite r.2 a = none) :
    SerialRun m₀ (schedule log ro n) (memAt m₀ log n) := by
  have hplaced : ∀ e, SerialRun (memAt m₀ log e) (readOnlyAt ro e) (memAt m₀ log e) := by
    intro e
    refine serialRun_readOnly fun t ht => ?_
    obtain ⟨⟨e', t'⟩, hr, rfl⟩ := List.mem_map.1 ht
    obtain ⟨hmem, he⟩ := List.mem_filter.1 hr
    obtain rfl : e' = e := by simpa using he
    exact hro _ hmem
  induction n with
  | zero => exact hplaced 0
  | succ n ih =>
      have hprev := ih fun c t hc hn => hlog c t hc (Nat.le_succ_of_le hn)
      rw [schedule]
      refine serialRun_append (serialRun_append hprev ?_) (hplaced (n + 1))
      cases hl : log (n + 1) with
      | none => exact (memAt_succ_of_none hl).symm
      | some t =>
          exact ⟨hlog (n + 1) t (Nat.succ_pos n) le_rfl hl, (memAt_succ_of_some hl).symm⟩

/-- A transaction that read another value of a word cannot come right after one that sets
it. -/
theorem not_serialRun_of_stale {n : ℕ} {a b : A} {v v' w : V} (hne : v ≠ v') (hpos : 0 < n)
    (hset : log n = some [.write a v]) (hread : log (n + 1) = some [.write b w, .read a v']) :
    ¬∃ m, SerialRun m₀ (schedule log [] (n + 1)) m := by
  rintro ⟨m, h⟩
  obtain ⟨n, rfl⟩ := Nat.exists_eq_succ_of_ne_zero hpos.ne'
  rw [schedule, hread, readOnlyAt, List.filter_nil, List.map_nil, List.append_nil] at h
  obtain ⟨m', h, hlegal, -⟩ := exists_of_serialRun_append h
  rw [schedule, hset, readOnlyAt, List.filter_nil, List.map_nil, List.append_nil] at h
  obtain ⟨m'', -, -, hm⟩ := exists_of_serialRun_append h
  have hm : final m'' [.write a v] = m' := hm
  have hnew : m' a = v := by
    rw [← hm]
    exact Function.update_self _ _ _
  have hold : m' a = v' := hlegal.1
  exact hne (hnew.symm.trans hold)

end Serial
