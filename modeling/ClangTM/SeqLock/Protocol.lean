import ClangTM.Serial.CommitLog
import ClangTM.Serial.RedoLog

/-!
# Transactions under one sequence lock

The protocol of the transactional memories that have a single sequence lock. The lock
is a counter, even while nobody writes back; a writer makes it odd, performs its writes
and makes it even again. While the counter has the even value `2 * n`, memory is what
the first `n` writers left, `State.memAt m₀ s n`.

What a thread knows between two accesses is stated for a value `L` of the counter and
the memories `M`, and is kept when the counter moves on and the memories it has passed
are settled (`Later`): a value is `Seen` at a counter value if it was part of the memory
there in case the counter still has that value.
-/

namespace SeqLock

open Serial

theorem odd_iff (c : BitVec 64) : (c &&& 1 != 0) = true ↔ c.toNat % 2 = 1 := by
  have h : (c &&& 1).toNat = c.toNat % 2 := by
    simp [BitVec.toNat_and, Nat.and_one_is_mod]
  have h0 : (0#64).toNat = 0 := rfl
  rw [bne_iff_ne, ne_eq, ← BitVec.toNat_inj, h]
  simp only [BitVec.ofNat_eq_ofNat, h0]
  omega

variable {A V T : Type*}

/-- The counter, memory, the writers so far and their traces, the committed read-only
transactions with the number of writers before them, and the writes that a thread has
still to perform if it holds the lock. -/
structure State (A V T : Type*) where
  clock : ℕ
  mem : A → V
  writers : ℕ
  log : ℕ → Option (Trace A V)
  ro : List (ℕ × Trace A V)
  writing : T → Option (List (A × V))

variable [DecidableEq A]

def State.memAt (m₀ : A → V) (s : State A V T) : ℕ → A → V := Serial.memAt m₀ s.log

section Moves

variable [DecidableEq T] (s : State A V T) (t : T)

/-- The thread `t` takes the lock, with the trace `w` and the writes `ws` to perform. -/
def State.acquire (w : Trace A V) (ws : List (A × V)) : State A V T :=
  { s with
    clock := s.clock + 1
    writers := s.writers + 1
    log := enter s.log (s.writers + 1) w
    writing := Function.update s.writing t (some ws) }

def State.writeBack (p : A × V) (rest : List (A × V)) : State A V T :=
  { s with
    mem := Function.update s.mem p.1 p.2
    writing := Function.update s.writing t (some rest) }

def State.release : State A V T :=
  { s with clock := s.clock + 1, writing := Function.update s.writing t none }

inductive Step (m₀ : A → V) : State A V T → Prop
  | acquire (w : Trace A V) (ws : List (A × V)) (heven : s.clock % 2 = 0)
      (hlegal : Legal s.mem w) (hws : writeAll s.mem ws = final s.mem w) :
      Step m₀ (s.acquire t w ws)
  | writeBack (p : A × V) (rest : List (A × V)) (hw : s.writing t = some (p :: rest)) :
      Step m₀ (s.writeBack t p rest)
  | release (hw : s.writing t = some []) : Step m₀ (s.release t)
  | commitReadOnly (n : ℕ) (w : Trace A V) (hle : 2 * n ≤ s.clock)
      (hlegal : Legal (s.memAt m₀ n) w) (hw : ∀ a, lastWrite w a = none) :
      Step m₀ { s with ro := (n, w) :: s.ro }

end Moves

structure Free (m₀ : A → V) (s : State A V T) : Prop where
  clock : s.clock = 2 * s.writers
  mem : s.mem = s.memAt m₀ s.writers
  writing : ∀ t, s.writing t = none

structure Held (m₀ : A → V) (s : State A V T) (t : T) (rest : List (A × V)) : Prop where
  self : s.writing t = some rest
  clock : s.clock + 1 = 2 * s.writers
  mem : writeAll s.mem rest = s.memAt m₀ s.writers
  writing : ∀ u, u ≠ t → s.writing u = none

structure Inv (m₀ : A → V) (s : State A V T) : Prop where
  lock : Free m₀ s ∨ ∃ t rest, Held m₀ s t rest
  log : ∀ n, 0 < n → n ≤ s.writers →
    ∃ w, s.log n = some w ∧ Legal (s.memAt m₀ (n - 1)) w
  ro : ∀ r ∈ s.ro, 2 * r.1 ≤ s.clock ∧ Legal (s.memAt m₀ r.1) r.2 ∧
    ∀ a, lastWrite r.2 a = none

/-- The counter has moved on, and the memories it has passed are settled. -/
structure Later (m₀ : A → V) (s s' : State A V T) : Prop where
  clock : s.clock ≤ s'.clock
  mem : ∀ n, 2 * n ≤ s.clock → s'.memAt m₀ n = s.memAt m₀ n

variable {m₀ : A → V} {s s' s'' : State A V T} {t : T}

theorem Later.of_eq (hclock : s'.clock = s.clock) (hlog : s'.log = s.log) : Later m₀ s s' :=
  ⟨hclock.ge, fun n _ => by rw [State.memAt, hlog, State.memAt]⟩

theorem Later.trans (h : Later m₀ s s') (h' : Later m₀ s' s'') : Later m₀ s s'' where
  clock := h.clock.trans h'.clock
  mem n hn := (h'.mem n (hn.trans h.clock)).trans (h.mem n hn)

namespace Inv

theorem init {m₀ : A → V} {s : State A V T} (hclock : s.clock = 0) (hmem : s.mem = m₀)
    (hwriters : s.writers = 0) (hro : s.ro = []) (hwriting : ∀ t, s.writing t = none) :
    Inv m₀ s where
  lock := by
    refine .inl ⟨by rw [hclock, hwriters], ?_, hwriting⟩
    rw [hmem, hwriters]
    rfl
  log n hpos hle := by omega
  ro := by simp [hro]

section

variable (h : Inv m₀ s)
include h

theorem clock_le : s.clock ≤ 2 * s.writers ∧ 2 * s.writers ≤ s.clock + 1 := by
  rcases h.lock with hfree | ⟨u, rest, hheld⟩
  · have := hfree.clock
    omega
  · have := hheld.clock
    omega

theorem free_of_even (heven : s.clock % 2 = 0) : Free m₀ s := by
  rcases h.lock with hfree | ⟨u, rest, hheld⟩
  · exact hfree
  · have := hheld.clock
    omega

/-- At an even value of the counter memory is what the writers so far left. -/
theorem mem_of_even (heven : s.clock % 2 = 0) : s.mem = s.memAt m₀ (s.clock / 2) := by
  have hfree := h.free_of_even heven
  rw [hfree.mem, hfree.clock, Nat.mul_div_cancel_left _ (by decide)]

theorem held {rest : List (A × V)} (hw : s.writing t = some rest) : Held m₀ s t rest := by
  rcases h.lock with hfree | ⟨u, rest', hheld⟩
  · simp [hfree.writing t] at hw
  · obtain rfl : t = u := by
      by_contra hne
      simp [hheld.writing t hne] at hw
    obtain rfl : rest' = rest := Option.some.inj (hheld.self.symm.trans hw)
    exact hheld

theorem log_later (hlater : Later m₀ s s') (hlog : ∀ n ≤ s.writers, s'.log n = s.log n) (n : ℕ)
    (hpos : 0 < n) (hn : n ≤ s.writers) :
    ∃ w, s'.log n = some w ∧ Legal (s'.memAt m₀ (n - 1)) w := by
  obtain ⟨w, hw, hlegal⟩ := h.log n hpos hn
  refine ⟨w, (hlog n hn).trans hw, ?_⟩
  have := h.clock_le
  rwa [hlater.mem _ (by omega)]

theorem ro_later (hlater : Later m₀ s s') :
    ∀ r ∈ s.ro, 2 * r.1 ≤ s'.clock ∧ Legal (s'.memAt m₀ r.1) r.2 ∧
      ∀ a, lastWrite r.2 a = none := by
  intro r hr
  obtain ⟨hle, hlegal, hw⟩ := h.ro r hr
  exact ⟨hle.trans hlater.clock, by rwa [hlater.mem _ hle], hw⟩

/-- The committed transactions, the writers in the order of their acquisitions, are a
serial run that leads to the memory the writers leave. -/
theorem serialRun : SerialRun m₀ (schedule s.log s.ro s.writers) (s.memAt m₀ s.writers) := by
  refine schedule_serialRun s.writers (fun n w hpos hn hw => ?_) fun r hr => (h.ro r hr).2
  obtain ⟨w', hw', hlegal⟩ := h.log n hpos hn
  rw [hw] at hw'
  exact Option.some.inj hw' ▸ hlegal

end

variable [DecidableEq T]

theorem acquire (h : Inv m₀ s) {w : Trace A V} {ws : List (A × V)} (heven : s.clock % 2 = 0)
    (hlegal : Legal s.mem w) (hws : writeAll s.mem ws = final s.mem w) :
    Inv m₀ (s.acquire t w ws) ∧ Later m₀ s (s.acquire t w ws) := by
  have hfree := h.free_of_even heven
  have hclock := hfree.clock
  have hlater : Later m₀ s (s.acquire t w ws) :=
    ⟨Nat.le_succ _, fun n hn => memAt_enter_of_lt _ (by omega)⟩
  refine ⟨⟨.inr ⟨t, ws, ?_, ?_, ?_, ?_⟩, fun n hpos hn => ?_, h.ro_later hlater⟩, hlater⟩
  · exact Function.update_self _ _ _
  · simp only [State.acquire]
    omega
  · rw [State.acquire, hws, State.memAt, memAt_succ_of_some (enter_self _ _ _),
      memAt_enter_of_lt _ (Nat.lt_succ_self _), ← State.memAt, ← hfree.mem]
  · intro u hu
    exact (Function.update_of_ne hu _ _).trans (hfree.writing u)
  · by_cases hlt : n ≤ s.writers
    · exact h.log_later hlater (fun k hk => enter_of_ne _ (by omega) _) n hpos hlt
    · obtain rfl : n = s.writers + 1 := by
        have : n ≤ s.writers + 1 := hn
        omega
      refine ⟨_, enter_self _ _ _, ?_⟩
      rwa [Nat.add_sub_cancel, hlater.mem _ hclock.ge, ← hfree.mem]

theorem writeBack (h : Inv m₀ s) {p : A × V} {rest : List (A × V)}
    (hw : s.writing t = some (p :: rest)) : Inv m₀ (s.writeBack t p rest) := by
  have hheld := h.held hw
  refine ⟨.inr ⟨t, rest, Function.update_self _ _ _, hheld.clock, hheld.mem, ?_⟩, h.log, h.ro⟩
  intro u hu
  exact (Function.update_of_ne hu _ _).trans (hheld.writing u hu)

theorem release (h : Inv m₀ s) (hw : s.writing t = some []) :
    Inv m₀ (s.release t) ∧ Later m₀ s (s.release t) := by
  have hheld := h.held hw
  have hlater : Later m₀ s (s.release t) := ⟨Nat.le_succ _, fun _ _ => rfl⟩
  refine ⟨⟨.inl ⟨hheld.clock, hheld.mem, fun u => ?_⟩, h.log_later hlater fun _ _ => rfl,
    h.ro_later hlater⟩, hlater⟩
  by_cases hu : u = t
  · subst hu
    exact Function.update_self _ _ _
  · exact (Function.update_of_ne hu _ _).trans (hheld.writing u hu)

theorem step (h : Inv m₀ s) (hs : Step s t m₀ s') : Inv m₀ s' ∧ Later m₀ s s' := by
  cases hs with
  | acquire w ws heven hlegal hws => exact h.acquire heven hlegal hws
  | writeBack p rest hw => exact ⟨h.writeBack hw, .of_eq rfl rfl⟩
  | release hw => exact h.release hw
  | commitReadOnly n w hle hlegal hw =>
      refine ⟨⟨?_, h.log, List.forall_mem_cons.2 ⟨⟨hle, hlegal, hw⟩, h.ro⟩⟩, .of_eq rfl rfl⟩
      rcases h.lock with hfree | ⟨u, rest, hheld⟩
      · exact .inl ⟨hfree.clock, hfree.mem, hfree.writing⟩
      · exact .inr ⟨u, rest, hheld.self, hheld.clock, hheld.mem, hheld.writing⟩

end Inv

/-- The value `v` was loaded from `a` when the counter had the even value `c`, in case
it still has that value. -/
structure Seen (L : ℕ) (M : ℕ → A → V) (c : ℕ) (a : A) (v : V) : Prop where
  even : c % 2 = 0
  le : c ≤ L
  value : L = c → M (c / 2) a = v

omit [DecidableEq A] in
theorem Seen.later {L L' : ℕ} {M M' : ℕ → A → V} {c : ℕ} {a : A} {v : V}
    (h : Seen L M c a v) (hL : L ≤ L') (hM : ∀ n, 2 * n ≤ L → M' n = M n) :
    Seen L' M' c a v where
  even := h.even
  le := h.le.trans hL
  value heq := by
    have := h.le
    rw [hM _ (by omega)]
    exact h.value (by omega)

end SeqLock
