import Mathlib.Algebra.Order.Group.Nat
import ClangTM.Simulator.Engine.Basic

/-!
# The retry loop of the buffered begins

Every thread of `pending_begins` is in a transaction after `flush_pending_begins`: a thread that
has not entered one has failed in every round, and after the last one it falls back to the lock.
`flush_induction` is the rule for what such a flush preserves: it is enough to look at one
attempt of one thread that has not entered a transaction yet.
-/

namespace Simulator.SimEngine

variable {σ γ : Type} {B : Backend σ γ}

/-- What can happen to one thread in a flush: an attempt fails, an attempt succeeds, or the
thread takes the lock, possibly after an attempt that failed. -/
inductive FlushStep (B : Backend σ γ) (tid : ℕ) : SimEngine σ γ → List ℕ → SimEngine σ γ →
    List ℕ → Prop
  | fail {e : SimEngine σ γ} {entered : List ℕ}
      (h : (B.tryBegin (e.btid tid) e.backend).1 = false) :
      FlushStep B tid e entered { e with backend := (B.tryBegin (e.btid tid) e.backend).2 } entered
  | enter {e : SimEngine σ γ} {entered : List ℕ}
      (h : (B.tryBegin (e.btid tid) e.backend).1 = true) :
      FlushStep B tid e entered
        ({ e with backend := (B.tryBegin (e.btid tid) e.backend).2 }.enterTx tid) (tid :: entered)
  | sgl {e : SimEngine σ γ} {entered : List ℕ} :
      FlushStep B tid e entered (e.beginSgl B tid) (tid :: entered)

def Preserved (B : Backend σ γ) (pending : List ℕ)
    (P : SimEngine σ γ → List ℕ → Prop) : Prop :=
  ∀ tid e entered e' entered', P e entered → tid ∈ pending → tid ∉ entered →
    FlushStep B tid e entered e' entered' → P e' entered'

section Attempts

variable {f : Flush σ γ} {pending : List ℕ}

/-- A thread outside its transaction has attempts left. -/
def AttemptsLeft (f : Flush σ γ) : Prop := ∀ tid, tid ∉ f.entered → f.attempts tid < maxRetries

theorem attemptBegin_attempts (h : AttemptsLeft f) (tid : ℕ) :
    AttemptsLeft (attemptBegin B f tid) ∧
      (∀ u, u ∈ f.entered → u ∈ (attemptBegin B f tid).entered) ∧
      (∀ u, f.attempts u ≤ (attemptBegin B f tid).attempts u) ∧
      (tid ∈ (attemptBegin B f tid).entered ∨
        f.attempts tid < (attemptBegin B f tid).attempts tid) := by
  have hle : ∀ u, f.attempts u ≤ Function.update f.attempts tid (f.attempts tid + 1) u := by
    intro u
    by_cases hu : u = tid
    · subst hu
      simp
    · simp [hu]
  have hleft : AttemptsLeft
      { f with
        attempts := Function.update f.attempts tid (f.attempts tid + 1)
        entered := tid :: f.entered } := by
    intro u hu
    obtain ⟨hne, hu⟩ : u ≠ tid ∧ u ∉ f.entered := by simpa using hu
    simpa [hne] using h u hu
  unfold attemptBegin
  dsimp only
  split
  · next hin => exact ⟨h, fun u hu => hu, fun u => le_rfl, .inl hin⟩
  · split
    · exact ⟨hleft, fun u hu => List.mem_cons_of_mem _ hu, hle, .inl List.mem_cons_self⟩
    · split
      · exact ⟨hleft, fun u hu => List.mem_cons_of_mem _ hu, hle, .inl List.mem_cons_self⟩
      · next hmax =>
          refine ⟨fun u hu => ?_, fun u hu => hu, hle, .inr (by simp)⟩
          show Function.update f.attempts tid (f.attempts tid + 1) u < maxRetries
          by_cases hut : u = tid
          · rw [hut]
            exact Nat.not_le.1 hmax
          · rw [Function.update_of_ne hut]
            exact h u hu

theorem foldl_attemptBegin_attempts (h : AttemptsLeft f) (pending : List ℕ) :
    AttemptsLeft (pending.foldl (attemptBegin B) f) ∧
      (∀ u, u ∈ f.entered → u ∈ (pending.foldl (attemptBegin B) f).entered) ∧
      (∀ u, f.attempts u ≤ (pending.foldl (attemptBegin B) f).attempts u) ∧
      ∀ u ∈ pending, u ∈ (pending.foldl (attemptBegin B) f).entered ∨
        f.attempts u < (pending.foldl (attemptBegin B) f).attempts u := by
  induction pending generalizing f with
  | nil => exact ⟨h, fun u hu => hu, fun u => le_rfl, fun u hu => by cases hu⟩
  | cons tid pending ih =>
      obtain ⟨hleft, hin, hle, htid⟩ := attemptBegin_attempts (B := B) h tid
      obtain ⟨hleft', hin', hle', hall⟩ := ih hleft
      refine ⟨hleft', fun u hu => hin' u (hin u hu), fun u => (hle u).trans (hle' u),
        fun u hu => ?_⟩
      rcases List.mem_cons.1 hu with rfl | hu
      · rcases htid with htid | htid
        · exact .inl (hin' u htid)
        · exact .inr (Nat.lt_of_lt_of_le htid (hle' u))
      · rcases hall u hu with hu | hu
        · exact .inl hu
        · exact .inr (Nat.lt_of_le_of_lt (hle u) hu)

theorem flushRounds_snd {k : ℕ} (h : AttemptsLeft f) (hnot : ∀ u ∈ pending, u ∉ f.entered)
    (hk : ∀ u ∈ pending, maxRetries ≤ f.attempts u + k) :
    (flushRounds B f pending k).2 = [] := by
  induction k generalizing f pending with
  | zero =>
      refine List.eq_nil_iff_forall_not_mem.2 fun u hu => ?_
      have hlt := h u (hnot u hu)
      have hge := hk u hu
      omega
  | succ k ih =>
      unfold flushRounds
      split
      · next hnil => exact hnil
      · obtain ⟨hleft, -, -, hall⟩ := foldl_attemptBegin_attempts (B := B) h pending
        refine ih hleft (fun u hu => ?_) fun u hu => ?_
        · simpa using (List.mem_filter.1 hu).2
        · obtain ⟨hu, hnot'⟩ := List.mem_filter.1 hu
          have hmore := (hall u hu).resolve_left (by simpa using hnot')
          have hge := hk u hu
          omega

end Attempts

section Rule

variable {pending : List ℕ} {P : SimEngine σ γ → List ℕ → Prop} (hP : Preserved B pending P)
include hP

theorem attemptBegin_preserved {f : Flush σ γ} (h : P f.engine f.entered) {tid : ℕ}
    (htid : tid ∈ pending) :
    P (attemptBegin B f tid).engine (attemptBegin B f tid).entered := by
  unfold attemptBegin
  dsimp only
  split
  · exact h
  · next hnot =>
      cases hr : (B.tryBegin (f.engine.btid tid) f.engine.backend).1 with
      | true => exact hP tid _ _ _ _ h htid hnot (.enter hr)
      | false =>
          have hfail := hP tid _ _ _ _ h htid hnot (.fail hr)
          rw [if_neg (by simp)]
          split
          · exact hP tid _ _ _ _ hfail htid hnot .sgl
          · exact hfail

theorem foldl_attemptBegin_preserved {f : Flush σ γ} (h : P f.engine f.entered) {l : List ℕ}
    (hl : l ⊆ pending) :
    P (l.foldl (attemptBegin B) f).engine (l.foldl (attemptBegin B) f).entered := by
  induction l generalizing f with
  | nil => exact h
  | cons tid l ih =>
      exact ih (attemptBegin_preserved hP h (hl List.mem_cons_self))
        fun u hu => hl (List.mem_cons_of_mem _ hu)

theorem flushRounds_preserved {f : Flush σ γ} (h : P f.engine f.entered) {l : List ℕ}
    (hl : l ⊆ pending) (k : ℕ) :
    P (flushRounds B f l k).1.engine (flushRounds B f l k).1.entered := by
  induction k generalizing f l with
  | zero => exact h
  | succ k ih =>
      unfold flushRounds
      split
      · exact h
      · exact ih (foldl_attemptBegin_preserved hP h hl)
          fun u hu => hl (List.mem_filter.1 hu).1

end Rule

theorem flushRounds_all {f : Flush σ γ} (h : AttemptsLeft f) {pending : List ℕ} {u : ℕ}
    (hu : u ∈ f.entered ∨ u ∈ pending) (k : ℕ) :
    u ∈ (flushRounds B f pending k).1.entered ∨ u ∈ (flushRounds B f pending k).2 := by
  induction k generalizing f pending with
  | zero => exact hu
  | succ k ih =>
      unfold flushRounds
      split
      · exact hu
      · obtain ⟨hleft, hin, -, -⟩ := foldl_attemptBegin_attempts (B := B) h pending
        refine ih hleft ?_
        by_cases hu' : u ∈ (pending.foldl (attemptBegin B) f).entered
        · exact .inl hu'
        · exact .inr (List.mem_filter.2
            ⟨hu.resolve_left fun hm => hu' (hin u hm), by simpa using hu'⟩)

/-- What a flush of the TSX simulation preserves, with every thread in its transaction. -/
theorem flush_induction (htsx : B.isTsxSim = true) {e : SimEngine σ γ}
    {P : SimEngine σ γ → List ℕ → Prop} (hP : Preserved B e.pendingBegins P)
    (h : P { e with pendingBegins := [] } []) :
    ∃ entered, (∀ u ∈ e.pendingBegins, u ∈ entered) ∧ P (e.flushPendingBegins B) entered := by
  have hleft : AttemptsLeft ({ engine := { e with pendingBegins := [] } } : Flush σ γ) :=
    fun _ _ => (by decide : 0 < maxRetries)
  have hnil : (flushRounds B { engine := { e with pendingBegins := [] } } e.pendingBegins
      maxRetries).2 = [] :=
    flushRounds_snd hleft (fun u _ => List.not_mem_nil) fun u _ => Nat.le_add_left _ _
  have hrounds := flushRounds_preserved hP
    (f := { engine := { e with pendingBegins := [] } }) h (List.Subset.refl _) maxRetries
  refine ⟨(flushRounds B { engine := { e with pendingBegins := [] } } e.pendingBegins
    maxRetries).1.entered, fun u hu => ?_, ?_⟩
  · exact (flushRounds_all (B := B) hleft (.inr hu) maxRetries).resolve_right (by
      rw [hnil]
      exact List.not_mem_nil)
  · rw [flushPendingBegins]
    dsimp only
    rw [if_pos htsx, hnil]
    exact hrounds

end Simulator.SimEngine
