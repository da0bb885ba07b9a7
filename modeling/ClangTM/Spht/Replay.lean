import ClangTM.Serial.Serializable
import ClangTM.Spht.Basic

/-!
# Replays and fallback transactions

As long as hardware transactions respect the mutex and a replay changes nothing, memory has what
the committed transactions have left, and on top of it the stores of the one fallback transaction
that may be running.
-/

namespace Spht

open Serial Transition

variable {A T : Type} [DecidableEq A]

theorem legal_perform {m : A → BitVec 64} (body : List (Access A)) {ops : Trace A (BitVec 64)}
    (h : Legal m ops) : Legal m (perform m body ops) := by
  induction body generalizing ops with
  | nil => exact h
  | cons a body ih =>
      cases a with
      | read a => exact ih ⟨rfl, h⟩
      | write a v => exact ih h

/-- The accesses of the running fallback transaction. -/
def opened (s : Threads (Shared A T) (Tx A) T) : Trace A (BitVec 64) :=
  s.shared.mutex.elim [] fun t => (s.tx t).ops

structure Inv (m₀ m : A → BitVec 64) (s : Threads (Shared A T) (Tx A) T) : Prop where
  serial : SerialRun m₀ s.shared.log m
  legal : Legal m (opened s)
  mem : s.shared.mem = final m (opened s)
  lock : ∀ t, s.shared.mutex = some t ↔ ∃ b, (s.tx t).pc = .fallback b
  start : ∀ t b, (s.tx t).pc = .fallback b → (s.tx t).start = s.shared.log.length

variable {m₀ m : A → BitVec 64} {s : Threads (Shared A T) (Tx A) T} {t : T} {x : Tx A} {d : Design}

theorem Inv.free (hi : Inv m₀ m s) (hfree : s.shared.mutex = none) :
    s.shared.mem = m ∧ ∀ u b, (s.tx u).pc ≠ .fallback b := by
  refine ⟨?_, fun u b hb => ?_⟩
  · have hmem := hi.mem
    simpa [opened, hfree] using hmem
  · have := (hi.lock u).2 ⟨b, hb⟩
    rw [hfree] at this
    cases this

variable [DecidableEq T]

/-- A step of a thread that is in no fallback transaction, and leaves memory and the mutex. -/
theorem Inv.outside (hi : Inv m₀ m s) (hpc : ∀ b, (s.tx t).pc ≠ .fallback b)
    (hpc' : ∀ b, x.pc ≠ .fallback b) : Inv m₀ m (s.put t s.shared x) := by
  have hne : ∀ u, s.shared.mutex = some u → u ≠ t := fun u hu hut => by
    obtain ⟨b, hb⟩ := (hi.lock u).1 hu
    exact hpc b (hut ▸ hb)
  have hopened : opened (s.put t s.shared x) = opened s := by
    unfold opened
    rw [Threads.put_shared]
    cases hm : s.shared.mutex with
    | none => rfl
    | some u => exact congrArg Tx.ops (Threads.put_tx_of_ne (hne u hm))
  refine ⟨hi.serial, by rw [hopened]; exact hi.legal, by rw [hopened]; exact hi.mem, fun u => ?_,
    fun u b hb => ?_⟩
  · rw [Threads.put_shared, hi.lock]
    by_cases hu : u = t
    · rw [hu, Threads.put_tx_self]
      exact ⟨fun ⟨b, hb⟩ => absurd hb (hpc b), fun ⟨b, hb⟩ => absurd hb (hpc' b)⟩
    · rw [Threads.put_tx_of_ne hu]
  · by_cases hu : u = t
    · rw [hu, Threads.put_tx_self] at hb
      exact absurd hb (hpc' b)
    · rw [Threads.put_tx_of_ne hu] at hb ⊢
      exact hi.start u b hb

omit [DecidableEq A] in
theorem not_fallback_put {σ : Shared A T} {u : T} {b : Bool}
    (hb : ((s.put t σ x).tx u).pc = .fallback b) (hx : ∀ b, x.pc ≠ .fallback b)
    (h : ∀ u, u ≠ t → ∀ b, (s.tx u).pc ≠ .fallback b) : False :=
  Threads.forall_put (P := fun _ (y : Tx A) => y.pc ≠ .fallback b) (hx b)
      (fun v hv => h v hv b) u hb

section

variable (hi : Inv m₀ m s)
include hi

theorem hardware_inv (hfree : s.shared.mutex = none) {body : List (Access A)} {σ : Shared A T}
    (hnext : hardware d s.shared (s.tx t) body = some (σ, x)) : ∃ m', Inv m₀ m' (s.put t σ x) := by
  obtain ⟨hmem, hnone⟩ := hi.free hfree
  obtain ⟨entries, -, heq⟩ := Option.map_eq_some_iff.1 hnext
  cases heq
  refine ⟨final m (perform m body []), ?_, ?_, ?_, fun u => ?_, fun u b hb =>
    (not_fallback_put hb (by simp) fun v _ => hnone v).elim⟩
  · rw [hmem]
    exact serialRun_append hi.serial ⟨legal_perform body trivial, rfl⟩
  · simp [opened, hfree, Legal]
  · rw [hmem]
    simp [opened, hfree]
  · rw [Threads.put_shared]
    refine ⟨fun h => by simp [hfree] at h, fun h => ?_⟩
    obtain ⟨b, hb⟩ := h
    exact (not_fallback_put hb (by simp) fun v _ => hnone v).elim

theorem begin_inv (hfree : s.shared.mutex = none) :
    Inv m₀ m (s.put t { s.shared with mutex := some t }
      { s.tx t with pc := .fallback true, ops := [], start := s.shared.log.length }) := by
  obtain ⟨hmem, hnone⟩ := hi.free hfree
  refine ⟨hi.serial, ?_, ?_, fun u => ?_, fun u b hb => ?_⟩
  · simp [opened, Legal]
  · simpa [opened] using hmem
  · by_cases hu : u = t
    · rw [hu, Threads.put_tx_self]
      exact ⟨fun _ => ⟨true, rfl⟩, fun _ => rfl⟩
    · rw [Threads.put_tx_of_ne hu]
      refine ⟨fun h => absurd (Option.some.inj h).symm hu, fun h => ?_⟩
      obtain ⟨b, hb⟩ := h
      exact absurd hb (hnone u b)
  · by_cases hu : u = t
    · rw [hu, Threads.put_tx_self]
      rfl
    · rw [Threads.put_tx_of_ne hu] at hb
      exact absurd hb (hnone u b)

theorem access_inv {b : Bool} (hpc : (s.tx t).pc = .fallback b) {σ : Shared A T}
    {op : Op A (BitVec 64)} (hlock : σ.mutex = s.shared.mutex) (hlog : σ.log = s.shared.log)
    (hlegal : Legal m (op :: (s.tx t).ops)) (hmem : σ.mem = final m (op :: (s.tx t).ops)) :
    Inv m₀ m (s.put t σ { s.tx t with ops := op :: (s.tx t).ops }) := by
  have hl : s.shared.mutex = some t := (hi.lock t).2 ⟨b, hpc⟩
  have hopened : opened (s.put t σ { s.tx t with ops := op :: (s.tx t).ops }) =
      op :: (s.tx t).ops := by
    simp [opened, hlock, hl]
  refine ⟨by rw [Threads.put_shared, hlog]; exact hi.serial, by rwa [hopened],
    by rwa [hopened], fun u => ?_, fun u c hc => ?_⟩
  · rw [Threads.put_shared, hlock, hi.lock]
    by_cases hu : u = t
    · rw [hu, Threads.put_tx_self]
    · rw [Threads.put_tx_of_ne hu]
  · rw [Threads.put_shared, hlog]
    by_cases hu : u = t
    · rw [hu, Threads.put_tx_self] at hc ⊢
      exact hi.start t c hc
    · rw [Threads.put_tx_of_ne hu] at hc ⊢
      exact hi.start u c hc

theorem commit_inv {b : Bool} (hpc : (s.tx t).pc = .fallback b) :
    ∃ m', Inv m₀ m' (s.put t { s.shared with mutex := none, log := s.shared.log ++ [(s.tx t).ops] }
      { s.tx t with pc := .out }) := by
  have hl : s.shared.mutex = some t := (hi.lock t).2 ⟨b, hpc⟩
  have hopened : opened s = (s.tx t).ops := by simp [opened, hl]
  have hlegal := hi.legal
  have hmem := hi.mem
  rw [hopened] at hlegal hmem
  have hnone : ∀ u, u ≠ t → ∀ c, (s.tx u).pc ≠ .fallback c := by
    intro u hu c h
    have := (hi.lock u).2 ⟨c, h⟩
    rw [hl] at this
    exact hu (Option.some.inj this).symm
  exact ⟨final m (s.tx t).ops, serialRun_append hi.serial ⟨hlegal, rfl⟩, trivial, hmem,
    fun u => ⟨nofun, fun ⟨c, hc⟩ => (not_fallback_put hc nofun hnone).elim⟩,
    fun u c hc => (not_fallback_put hc nofun hnone).elim⟩

theorem inv_step {s' : Threads (Shared A T) (Tx A) T} {l : T × Call A} (hs : step d s l = some s')
    (hok : Subscribed s l s') : ∃ m', Inv m₀ m' s' := by
  obtain ⟨t, c⟩ := l
  obtain ⟨σ, x, hnext, rfl⟩ := Threads.step_eq_some hs
  unfold Subscribed at hok
  dsimp only at hok hnext ⊢
  unfold next at hnext
  split at hnext <;> try cases hnext
  · next body hpc =>
      rw [hpc] at hok
      exact hardware_inv hi hok hnext
  · next hpc =>
      refine ⟨m, hi.outside (by rw [hpc]; nofun) fun b => ?_⟩
      cases d <;> dsimp only [ended] <;> split <;> nofun
  · next a v rest hpc =>
      rw [hpc] at hok
      rw [show Function.update s.shared.mem a v = s.shared.mem from
        hok ▸ Function.update_eq_self a s.shared.mem]
      exact ⟨m, hi.outside (by rw [hpc]; nofun) nofun⟩
  · next hpc =>
      refine ⟨m, hi.outside (by rw [hpc]; nofun) fun b => ?_⟩
      cases d <;> nofun
  · next longjmp hpc =>
      rw [hpc] at hok
      obtain rfl : longjmp = false := hok
      rw [if_neg (by decide)] at hnext
      split at hnext <;> cases hnext
      · next hfree => exact ⟨m, begin_inv hi hfree⟩
  · next b a hpc =>
      have hopened : opened s = (s.tx t).ops := by simp [opened, (hi.lock t).2 ⟨b, hpc⟩]
      have hmem := hi.mem
      have hlegal := hi.legal
      rw [hopened] at hmem hlegal
      exact ⟨m, access_inv hi hpc rfl rfl ⟨by rw [hmem], hlegal⟩ hmem⟩
  · next b a v hpc =>
      have hopened : opened s = (s.tx t).ops := by simp [opened, (hi.lock t).2 ⟨b, hpc⟩]
      have hmem := hi.mem
      have hlegal := hi.legal
      rw [hopened] at hmem hlegal
      exact ⟨m, access_inv hi hpc rfl rfl hlegal (by rw [final, ← hmem])⟩
  · next b hpc => exact commit_inv hi hpc

end

theorem inv_run (hr : Run (step d) Subscribed (init T m₀) s) : ∃ m, Inv m₀ m s := by
  refine hr.induction_on (P := fun s => ∃ m, Inv m₀ m s) ⟨m₀, rfl, trivial, rfl,
    fun _ => ⟨nofun, nofun⟩, nofun⟩ ?_
  rintro s₁ l s₂ - ⟨m, hi⟩ hs hok
  exact inv_step hi hs hok

end Spht
