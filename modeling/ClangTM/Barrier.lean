import Mathlib.Data.Fintype.Card
import Mathlib.Data.Fin.Tuple.Basic
import ClangTM.Transition.Threads

/-!
# The barrier of the init phases

The class `Barrier` of `thread_barrier.hpp`, used over and over by as many threads as it is
made for. A thread loads the generation before it counts itself in; the last one to arrive
resets the counter and then, by a store of its own, begins the next generation, which lets the
others go. A thread that has left may arrive again while others still spin.

The integers of the source are those of Lean: the counter stays between zero and the number of
threads, and the generation is the number of rounds. How often a thread has entered and left
`wait` is recorded and not read by any step.
-/

namespace Barrier

open Transition

inductive Pc
  | out
  | load
  /-- The `fetch_add`. -/
  | arrive (gen : ℤ)
  /-- The last thread: the store to `count_`. -/
  | reset (gen : ℤ)
  /-- The last thread: the store to `gen_`. -/
  | advance (gen : ℤ)
  | spin (gen : ℤ)
deriving DecidableEq

structure Tx where
  pc : Pc := .out
  entered : ℕ := 0
  left : ℕ := 0

structure Shared where
  count : ℤ := 0
  gen : ℤ := 0

inductive Call
  | wait
  | tau

def Tx.leave (x : Tx) : Tx := { x with pc := .out, left := x.left + 1 }

def next {T : Type} (n : ℤ) (_ : T) (σ : Shared) (x : Tx) (c : Call) : Option (Shared × Tx) :=
  match x.pc, c with
  | .out, .wait => some (σ, { x with pc := .load, entered := x.entered + 1 })
  | .load, .tau => some (σ, { x with pc := .arrive σ.gen })
  | .arrive gen, .tau =>
      some ({ σ with count := σ.count + 1 },
        { x with pc := if σ.count = n - 1 then .reset gen else .spin gen })
  | .reset gen, .tau => some ({ σ with count := 0 }, { x with pc := .advance gen })
  | .advance gen, .tau => some ({ σ with gen := gen + 1 }, x.leave)
  | .spin gen, .tau => some (σ, if σ.gen = gen then x else x.leave)
  | _, _ => none

def step {T : Type} [DecidableEq T] (n : ℤ) :
    Threads Shared Tx T → T × Call → Option (Threads Shared Tx T) :=
  Threads.step (next n)

def init (T : Type) : Threads Shared Tx T where
  shared := {}
  tx _ := {}

section Invariant

variable {T : Type} [Fintype T] {s : Threads Shared Tx T} {t : T} {σ : Shared} {x : Tx}

/-- A thread outside `wait` has left as often as there were generations, and one inside has
loaded the generation that stands, or, spinning, the one before it. -/
def TxInv (gen : ℤ) (x : Tx) : Prop :=
  match x.pc with
  | .out => x.entered = x.left ∧ x.left = gen
  | .load => x.entered = x.left + 1 ∧ x.left = gen
  | .arrive g | .reset g | .advance g => x.entered = x.left + 1 ∧ x.left = gen ∧ g = gen
  | .spin g => x.entered = x.left + 1 ∧ x.left = g ∧ (gen = g ∨ gen = g + 1)

/-- The thread is about to begin the next generation. -/
def Pc.last : Pc → Bool
  | .reset _ | .advance _ => true
  | _ => false

/-- What such a thread leaves in the counter. -/
def Pc.counted (n : ℕ) : Pc → ℕ
  | .advance _ => 0
  | _ => n

/-- Either the counter has the number of threads that spin, or one thread is about to begin the
next generation and all others spin. -/
inductive Round (s : Threads Shared Tx T) : Prop
  | gather (k : ℕ) (hcount : s.shared.count = k) (hk : k < Fintype.card T)
      (hspin : Threads.Counts (fun x => x.pc = .spin s.shared.gen) s k)
      (hlast : ∀ t, (s.tx t).pc.last = false)
  | turn (t : T) (hlast : (s.tx t).pc.last = true)
      (hcount : s.shared.count = (s.tx t).pc.counted (Fintype.card T))
      (hothers : ∀ u, u ≠ t → (s.tx u).pc = .spin s.shared.gen)

structure Inv (s : Threads Shared Tx T) : Prop where
  tx : ∀ t, TxInv s.shared.gen (s.tx t)
  round : Round s

theorem Inv.at {p : Pc} (h : Inv s) (hpc : (s.tx t).pc = p) :
    TxInv s.shared.gen { s.tx t with pc := p } := by
  subst hpc
  exact h.tx t

variable [DecidableEq T]

theorem gather_of_pc {p : Pc} (h : Round s) (hpc : (s.tx t).pc = p) (hp : p.last = false)
    (hspin : p ≠ .spin s.shared.gen) :
    ∃ k : ℕ, s.shared.count = k ∧ k < Fintype.card T ∧
      Threads.Counts (fun x => x.pc = .spin s.shared.gen) s k ∧ ∀ t, (s.tx t).pc.last = false := by
  subst hpc
  cases h with
  | gather k hcount hk hspin hlast => exact ⟨k, hcount, hk, hspin, hlast⟩
  | turn u hlast hcount hothers =>
      by_cases hut : t = u
      · subst hut
        cases hp.symm.trans hlast
      · exact absurd (hothers t hut) hspin

/-- The others of a thread that is about to begin the next generation. -/
theorem others_of_last (h : Round s) (ht : (s.tx t).pc.last = true) :
    s.shared.count = (s.tx t).pc.counted (Fintype.card T) ∧
      ∀ u, u ≠ t → (s.tx u).pc = .spin s.shared.gen := by
  cases h with
  | gather k hcount hk hspin hlast => cases (hlast t).symm.trans ht
  | turn u hlast hcount hothers =>
      by_cases hut : t = u
      · subst hut
        exact ⟨hcount, hothers⟩
      · rw [hothers t hut] at ht
        cases ht

/-- A step of a thread that is not counted, before and after. -/
theorem Inv.quiet {p : Pc} (h : Inv s) (hpc : (s.tx t).pc = p) (hp : p.last = false)
    (hp' : p ≠ .spin s.shared.gen) (hx : x.pc.last = false) (hx' : x.pc ≠ .spin s.shared.gen)
    (hinv : TxInv s.shared.gen x) : Inv (s.put t s.shared x) := by
  obtain ⟨k, hcount, hk, hspin, hlast⟩ := gather_of_pc h.round hpc hp hp'
  exact ⟨Threads.forall_put hinv fun u _ => h.tx u,
    .gather k hcount hk (hspin.put_same (by simp [hpc, hp', hx']))
      (Threads.forall_put (P := fun _ (x : Tx) => x.pc.last = false) hx fun u _ => hlast u)⟩

/-- A step of the last thread to arrive. -/
theorem Inv.turn {p : Pc} (h : Inv s) (hp : p.last = true)
    (hinv : TxInv s.shared.gen { s.tx t with pc := p })
    (hothers : ∀ u, u ≠ t → (s.tx u).pc = .spin s.shared.gen) :
    Inv (s.put t { s.shared with count := p.counted (Fintype.card T) }
      { s.tx t with pc := p }) := by
  refine ⟨Threads.forall_put hinv fun u _ => h.tx u, .turn t ?_ ?_ fun u hu => ?_⟩
  · rwa [Threads.put_tx_self]
  · rw [Threads.put_tx_self]
    rfl
  · rw [Threads.put_tx_of_ne hu]
    exact hothers u hu

theorem Inv.arriveLast (h : Inv s) (hpc : (s.tx t).pc = .arrive s.shared.gen)
    (hn : s.shared.count = Fintype.card T - 1) :
    Inv (s.put t { s.shared with count := s.shared.count + 1 }
      { s.tx t with pc := .reset s.shared.gen }) := by
  obtain ⟨hentered, hleft, -⟩ := h.at hpc
  obtain ⟨k, hcount, hk, ⟨R, hR, hcard⟩, -⟩ := gather_of_pc h.round hpc rfl (by simp)
  have hall : insert t R = Finset.univ := by
    refine Finset.eq_univ_of_card _ ?_
    rw [Finset.card_insert_of_notMem (by simp [hR, hpc])]
    omega
  rw [hn, Int.sub_add_cancel]
  refine h.turn (p := .reset _) rfl ⟨hentered, hleft, rfl⟩ fun u hu => ?_
  have huR : u ∈ insert t R := hall ▸ Finset.mem_univ u
  exact (hR u).1 ((Finset.mem_insert.1 huR).resolve_left hu)

theorem Inv.arriveFirst (h : Inv s) (hpc : (s.tx t).pc = .arrive s.shared.gen)
    (hn : s.shared.count ≠ Fintype.card T - 1) :
    Inv (s.put t { s.shared with count := s.shared.count + 1 }
      { s.tx t with pc := .spin s.shared.gen }) := by
  obtain ⟨hentered, hleft, -⟩ := h.at hpc
  obtain ⟨k, hcount, hk, hspin, hlast⟩ := gather_of_pc h.round hpc rfl (by simp)
  refine ⟨Threads.forall_put ⟨hentered, hleft, .inl rfl⟩ fun u _ => h.tx u,
    .gather (k + 1) ?_ ?_ (hspin.put_in (by simp [hpc]) rfl)
      (Threads.forall_put (P := fun _ (x : Tx) => x.pc.last = false) rfl fun u _ => hlast u)⟩
  · show s.shared.count + 1 = _
    omega
  · omega

theorem Inv.advance (h : Inv s) (hpc : (s.tx t).pc = .advance s.shared.gen) :
    Inv (s.put t { s.shared with gen := s.shared.gen + 1 } (s.tx t).leave) := by
  obtain ⟨hentered, hleft, -⟩ := h.at hpc
  obtain ⟨hcount, hothers⟩ := others_of_last (t := t) h.round (by rw [hpc]; rfl)
  rw [hpc] at hcount
  refine ⟨Threads.forall_put ⟨hentered, by simp [Tx.leave, hleft]⟩ fun u hu => ?_,
    .gather 0 hcount (Fintype.card_pos_iff.2 ⟨t⟩) (.zero_of_forall ?_) ?_⟩
  · obtain ⟨hentered', hleft', -⟩ := h.at (hothers u hu)
    have hpc' := hothers u hu
    unfold TxInv
    rw [hpc']
    exact ⟨hentered', hleft', .inr rfl⟩
  · refine Threads.forall_put (P := fun _ (x : Tx) => x.pc ≠ .spin (s.shared.gen + 1))
      (by simp [Tx.leave]) fun u hu => ?_
    rw [hothers u hu]
    intro heq
    have := Pc.spin.inj heq
    omega
  · refine Threads.forall_put (P := fun _ (x : Tx) => x.pc.last = false) rfl fun u hu => ?_
    rw [hothers u hu]
    rfl

theorem inv_next (h : Inv s) {c : Call}
    (hnext : next (Fintype.card T) t s.shared (s.tx t) c = some (σ, x)) : Inv (s.put t σ x) := by
  unfold next at hnext
  cases hpc : (s.tx t).pc <;> rw [hpc] at hnext <;> cases c <;> cases hnext
  case out.wait =>
    obtain ⟨hentered, hleft⟩ := h.at hpc
    exact h.quiet hpc rfl (by simp) rfl (by simp) ⟨congrArg (· + 1) hentered, hleft⟩
  case load.tau =>
    obtain ⟨hentered, hleft⟩ := h.at hpc
    exact h.quiet hpc rfl (by simp) rfl (by simp) ⟨hentered, hleft, rfl⟩
  case arrive.tau g =>
    obtain ⟨-, -, rfl⟩ := h.at hpc
    split
    · next hn => exact h.arriveLast hpc hn
    · next hn => exact h.arriveFirst hpc hn
  case reset.tau g =>
    obtain ⟨hentered, hleft, rfl⟩ := h.at hpc
    exact h.turn (p := .advance _) rfl ⟨hentered, hleft, rfl⟩
      (others_of_last h.round (by rw [hpc]; rfl)).2
  case advance.tau g =>
    obtain ⟨-, -, rfl⟩ := h.at hpc
    exact h.advance hpc
  case spin.tau g =>
    obtain ⟨hentered, hleft, hgen⟩ := h.at hpc
    split
    · rwa [Threads.put_self]
    · next hg =>
        exact h.quiet hpc rfl (by simpa using Ne.symm hg) rfl (by simp [Tx.leave])
          ⟨hentered, by simp [Tx.leave, hleft, hgen.resolve_left hg]⟩

theorem inv_run [Nonempty T] (hr : Run (step (Fintype.card T)) anyStep (init T) s) : Inv s := by
  refine hr.induction_on (P := Inv) ?_ fun s l s' _ h hs _ => ?_
  · exact ⟨fun t => ⟨rfl, rfl⟩, .gather 0 rfl Fintype.card_pos
      (.zero_of_forall fun t => by simp [init]) fun t => rfl⟩
  · obtain ⟨σ, x, hnext, rfl⟩ := Threads.step_eq_some hs
    exact inv_next h hnext

omit [Fintype T] [DecidableEq T] in
theorem TxInv.bounds {gen : ℤ} (h : TxInv gen x) : (x.left : ℤ) ≤ gen ∧ gen ≤ x.entered := by
  unfold TxInv at h
  split at h <;> omega

/-- A thread has not left `wait` more often than any other has entered it, the counter is
between zero and the number of threads, and the threads do not all spin in the generation that
stands. -/
theorem barrier_separates [Nonempty T] (hr : Run (step (Fintype.card T)) anyStep (init T) s) :
    (∀ t u, (s.tx t).left ≤ (s.tx u).entered) ∧
      0 ≤ s.shared.count ∧ s.shared.count ≤ Fintype.card T ∧
      ¬∀ t, (s.tx t).pc = .spin s.shared.gen := by
  have h := inv_run hr
  refine ⟨fun t u => ?_, ?_⟩
  · have ht := (h.tx t).bounds
    have hu := (h.tx u).bounds
    omega
  · cases h.round with
    | gather k hcount hk hspin _ =>
        refine ⟨by omega, by omega, fun hall => ?_⟩
        obtain ⟨R, hR, rfl⟩ := hspin
        have huniv : R = Finset.univ := Finset.eq_univ_iff_forall.2 fun t => (hR t).2 (hall t)
        rw [huniv, Finset.card_univ] at hk
        exact lt_irrefl _ hk
    | turn t hlast hcount hothers =>
        have hle : (s.tx t).pc.counted (Fintype.card T) ≤ Fintype.card T := by
          unfold Pc.counted
          split <;> omega
        refine ⟨by omega, by omega, fun hall => ?_⟩
        rw [hall t] at hlast
        cases hlast

end Invariant

/-- Two threads meet; the first has left and arrives again while the second still spins. -/
theorem barrier_separates_two : ∃ s : Threads Shared Tx (Fin 2),
    (s.tx 0).left = 1 ∧ (s.tx 0).entered = 2 ∧ (s.tx 1).left = 0 ∧ s.shared.count = 1 ∧
      ∀ t u, (s.tx t).left ≤ (s.tx u).entered := by
  obtain ⟨s, hs, hrest⟩ : ∃ s, exec (step 2) anyStep (init (Fin 2))
      [(1, .wait), (1, .tau), (0, .wait), (1, .tau), (0, .tau), (0, .tau), (0, .tau), (0, .tau),
        (0, .wait), (0, .tau), (0, .tau)] = some s ∧
      (s.tx 0).left = 1 ∧ (s.tx 0).entered = 2 ∧ (s.tx 1).left = 0 ∧ s.shared.count = 1 :=
    ⟨_, rfl, rfl, rfl, rfl, rfl⟩
  obtain ⟨hleft, hentered, hother, hcount⟩ := hrest
  exact ⟨s, hleft, hentered, hother, hcount, (barrier_separates (run_of_exec hs)).1⟩

end Barrier
