import ClangTM.DistributedSGL.Basic

/-!
# The transactions of all processes are serial

While the lock is free the file has what the transactions have left, and the thread that has the
lock has the symbols of its process to itself. Before the lock is first taken nobody has it, and
the file has the initial values as far as it has been published.
-/

namespace DistributedSGL

open Serial Transition

variable {Q T : Type} {n : ℕ} {proc : T → Q} {m₀ m : ℕ → Byte}

def Pc.holding : Pc → Bool
  | .load _ | .body | .store _ | .epoch | .unlock => true
  | _ => false

def Pc.initing : Pc → Bool
  | .initCas _ | .initReset | .initStore _ | .initLoad _ | .initReady | .barrier => true
  | _ => false

def Holds (n : ℕ) (m : ℕ → Byte) (σ : Shared Q T) (q : Q) (x : Tx) : Prop :=
  match x.pc with
  | .load i => x.ops = [] ∧ (∀ j < n, σ.image j = m j) ∧ ∀ j < i, j < n → σ.loc q j = m j
  | .body => Legal m x.ops ∧ (∀ j < n, σ.image j = m j) ∧ ∀ j < n, σ.loc q j = final m x.ops j
  | .store i => Legal m x.ops ∧ (∀ j < i, j < n → σ.image j = final m x.ops j) ∧
      ∀ j < n, σ.loc q j = final m x.ops j
  | .epoch | .unlock => Legal m x.ops ∧ ∀ j < n, σ.image j = final m x.ops j
  | _ => True

/-- What a thread knows: about the lock, about what has been published before the first
transaction, and about its process. -/
structure Knows (n : ℕ) (proc : T → Q) (m₀ m : ℕ → Byte) (σ : Shared Q T) (t : T) (x : Tx) :
    Prop where
  lock : x.pc.holding = true ↔ σ.lock = some t
  holds : Holds n m σ (proc t) x
  publishing : σ.started = false → ∀ i, x.pc = .publish i → ∀ j < i, j < n → σ.image j = m₀ j
  locking : σ.started = false → x.pc = .lock → ∀ j < n, σ.image j = m₀ j
  first : x.first = false → σ.started = true ∨ x.pc = .lock
  initing : x.pc.initing = true → σ.stage (proc t) = .initing t
  up : x.pc.initing = false → x.pc ≠ .out → (σ.stage (proc t)).up = true

structure Inv (n : ℕ) (proc : T → Q) (m₀ m : ℕ → Byte) (s : Threads (Shared Q T) Tx T) :
    Prop where
  serial : SerialRun m₀ s.shared.log m
  free : s.shared.started = true → s.shared.lock = none → ∀ j < n, s.shared.image j = m j
  fresh : s.shared.started = false → s.shared.log = [] ∧ s.shared.lock = none
  passed : ∀ q, (s.shared.stage q).up = true → s.shared.passed = true
  started : s.shared.started = true → s.shared.passed = true
  knows : ∀ t, Knows n proc m₀ m s.shared t (s.tx t)

structure Frame (m₀ : ℕ → Byte) (t : T) (σ σ' : Shared Q T) : Prop where
  lock : σ'.lock = σ.lock
  log : σ'.log = σ.log
  started : σ'.started = σ.started
  image : σ'.image = σ.image ∨ σ.started = false ∧ σ.passed = false ∨
    σ.started = false ∧ ∀ j, σ'.image j = σ.image j ∨ σ'.image j = m₀ j
  loc : ∀ q, σ'.loc q = σ.loc q ∨ σ.started = false ∨ (σ.stage q).up = false
  initing : ∀ q u, u ≠ t → σ.stage q = .initing u → σ'.stage q = .initing u
  up : ∀ q, (σ.stage q).up = true → (σ'.stage q).up = true
  passed : ∀ q, (σ'.stage q).up = true → σ'.passed = true
  mono : σ.passed = true → σ'.passed = true

section Frames

variable {s : Threads (Shared Q T) Tx T} {t u : T} {σ σ' : Shared Q T} {x : Tx}

theorem holds_of_not_holding {q : Q} (h : x.pc.holding = false) : Holds n m σ q x := by
  unfold Holds
  split <;> simp_all [Pc.holding]

def Pc.outer : Pc → Bool
  | .out | .publish _ | .lock => false
  | pc => !pc.holding

theorem Pc.ne_of_outer {pc : Pc} (h : pc.outer = true) :
    pc.holding = false ∧ pc ≠ .out ∧ pc ≠ .lock ∧ ∀ i, pc ≠ .publish i := by
  cases pc <;> simp_all [Pc.outer, Pc.holding]

theorem Pc.initing_of_holding {pc : Pc} (h : pc.holding = true) : pc.initing = false := by
  cases pc <;> simp_all [Pc.holding, Pc.initing]

theorem Knows.up_of_holding (h : Knows n proc m₀ m σ t x) (hh : x.pc.holding = true) :
    (σ.stage (proc t)).up = true :=
  h.up (Pc.initing_of_holding hh) fun hpc => by simp [hpc, Pc.holding] at hh

theorem Inv.holdsAt (hi : Inv n proc m₀ m s) {p : Pc} (hpc : (s.tx t).pc = p) :
    Holds n m s.shared (proc t) { s.tx t with pc := p } := by
  subst hpc
  exact (hi.knows t).holds

theorem Inv.upAt (hi : Inv n proc m₀ m s) {p : Pc} (hpc : (s.tx t).pc = p)
    (hp : p.initing = false) (hne : p ≠ .out) : (s.shared.stage (proc t)).up = true := by
  subst hpc
  exact (hi.knows t).up hp hne

theorem Inv.firstAt (hi : Inv n proc m₀ m s) {p : Pc} (hpc : (s.tx t).pc = p) (hne : p ≠ .lock)
    (h : (s.tx t).first = false) : s.shared.started = true :=
  ((hi.knows t).first h).resolve_right (hpc ▸ hne)

theorem Inv.of_lock (hi : Inv n proc m₀ m s) (hl : s.shared.lock = some t) :
    s.shared.started = true := by
  cases hs : s.shared.started with
  | true => rfl
  | false =>
      rw [(hi.fresh hs).2] at hl
      cases hl

theorem Inv.not_holding (hi : Inv n proc m₀ m s)
    (hl : s.shared.lock = some t ∨ s.shared.lock = none) (hu : u ≠ t) :
    (s.tx u).pc.holding = false := by
  rw [Bool.eq_false_iff, ne_eq, (hi.knows u).lock]
  rcases hl with hl | hl <;> simp [hl, hu.symm]

theorem Inv.frame_of_eq (hi : Inv n proc m₀ m s) (hlock : σ.lock = s.shared.lock)
    (hlog : σ.log = s.shared.log) (hstarted : σ.started = s.shared.started)
    (himage : σ.image = s.shared.image) (hloc : σ.loc = s.shared.loc)
    (hstage : σ.stage = s.shared.stage) (hpassed : σ.passed = s.shared.passed) :
    Frame m₀ t s.shared σ where
  lock := hlock
  log := hlog
  started := hstarted
  image := .inl himage
  loc q := .inl (by rw [hloc])
  initing q u _ h := by rwa [hstage]
  up q h := by rwa [hstage]
  passed q h := by
    rw [hpassed]
    exact hi.passed q (hstage ▸ h)
  mono h := hpassed.trans h

theorem Frame.image_of_started (hf : Frame m₀ t σ σ') (hs : σ.started = true) :
    σ'.image = σ.image := by
  rcases hf.image with h | h | h
  · exact h
  · simp [hs] at h
  · simp [hs] at h

theorem Inv.frame_publishing (hi : Inv n proc m₀ m s) (hf : Frame m₀ t s.shared σ)
    (hup : (s.shared.stage (proc u)).up = true) {j : ℕ} (hj : s.shared.image j = m₀ j) :
    σ.image j = m₀ j := by
  rcases hf.image with him | ⟨-, hp⟩ | ⟨-, him⟩
  · rw [him, hj]
  · have := hi.passed _ hup
    simp [hp] at this
  · rcases him j with h | h
    · rw [h, hj]
    · exact h

/-- What a thread knows after a step of another one that does not have the lock. -/
theorem Inv.knows_frame (hi : Inv n proc m₀ m s) (hf : Frame m₀ t s.shared σ) (hu : u ≠ t) :
    Knows n proc m₀ m σ u (s.tx u) := by
  have h := hi.knows u
  refine ⟨by rw [hf.lock]; exact h.lock, ?_, fun hs i hpc j hj hn => ?_, fun hs hpc j hj => ?_,
    by rw [hf.started]; exact h.first, fun hin => hf.initing _ u hu (h.initing hin),
    fun hin hout => hf.up _ (h.up hin hout)⟩
  · cases hh : (s.tx u).pc.holding with
    | false => exact holds_of_not_holding hh
    | true =>
        have hs := hi.of_lock (h.lock.1 hh)
        have hup := h.up_of_holding hh
        have hloc : σ.loc (proc u) = s.shared.loc (proc u) := by
          rcases hf.loc (proc u) with hl | hl | hl
          · exact hl
          · simp [hs] at hl
          · simp [hup] at hl
        have hholds := h.holds
        unfold Holds at hholds ⊢
        rwa [hf.image_of_started hs, hloc]
  · rw [hf.started] at hs
    exact hi.frame_publishing hf (hi.upAt hpc rfl nofun) (h.publishing hs i hpc j hj hn)
  · rw [hf.started] at hs
    exact hi.frame_publishing hf (hi.upAt hpc rfl nofun) (h.locking hs hpc j hj)

variable [DecidableEq T]

section

variable (hi : Inv n proc m₀ m s)
include hi

theorem Inv.other {p : Pc} (hpc : (s.tx t).pc = p) (hf : Frame m₀ t s.shared σ)
    (hout : p.holding = false) (hout' : x.pc.holding = false)
    (hpublish : s.shared.started = false → ∀ i, x.pc = .publish i →
      ∀ j < i, j < n → σ.image j = m₀ j)
    (hlocking : s.shared.started = false → x.pc = .lock → ∀ j < n, σ.image j = m₀ j)
    (hfirst : x.first = false → s.shared.started = true ∨ x.pc = .lock)
    (hiniting : x.pc.initing = true → σ.stage (proc t) = .initing t)
    (hup : x.pc.initing = false → x.pc ≠ .out → (σ.stage (proc t)).up = true) :
    Inv n proc m₀ m (s.put t σ x) where
  serial := by
    rw [Threads.put_shared, hf.log]
    exact hi.serial
  free hs hl := by
    rw [Threads.put_shared, hf.started] at hs
    rw [Threads.put_shared, hf.lock] at hl
    rw [Threads.put_shared, hf.image_of_started hs]
    exact hi.free hs hl
  fresh hs := by
    rw [Threads.put_shared, hf.started] at hs
    rw [Threads.put_shared, hf.log, hf.lock]
    exact hi.fresh hs
  passed := hf.passed
  started hs := hf.mono (hi.started (hf.started ▸ hs))
  knows := by
    refine Threads.forall_put (P := Knows n proc m₀ m σ) ⟨?_, holds_of_not_holding hout',
      fun hs => hpublish (hf.started ▸ hs), fun hs => hlocking (hf.started ▸ hs),
      fun h => by rw [hf.started]; exact hfirst h, hiniting, hup⟩ fun u hu => hi.knows_frame hf hu
    rw [hf.lock, ← (hi.knows t).lock, hpc, hout, hout']

/-- A step of the thread with the lock, or of one that takes it or gives it back. -/
theorem Inv.holder {m' : ℕ → Byte} (hl : s.shared.lock = some t ∨ s.shared.lock = none)
    (hserial : SerialRun m₀ σ.log m') (hfree : σ.lock = none → ∀ j < n, σ.image j = m' j)
    (hlock : σ.lock = if x.pc.holding then some t else none) (hstarted : σ.started = true)
    (hstage : σ.stage = s.shared.stage) (hpassed : σ.passed = s.shared.passed)
    (hup : (s.shared.stage (proc t)).up = true) (hinit : x.pc.initing = false)
    (hholds : Holds n m' σ (proc t) x) : Inv n proc m₀ m' (s.put t σ x) where
  serial := hserial
  free _ := hfree
  fresh hs := absurd (hs.symm.trans hstarted) Bool.false_ne_true
  passed q hq := hpassed.trans (hi.passed q (hstage ▸ hq))
  started _ := hpassed.trans (hi.passed _ hup)
  knows := by
    refine Threads.forall_put (P := Knows n proc m₀ m' σ) ⟨?_, hholds,
      fun hs => absurd (hs.symm.trans hstarted) Bool.false_ne_true,
      fun hs => absurd (hs.symm.trans hstarted) Bool.false_ne_true,
      fun _ => .inl hstarted, fun h => by simp [hinit] at h, fun _ _ => by rw [hstage]; exact hup⟩
      fun u hu => ?_
    · rw [hlock]
      cases x.pc.holding <;> simp
    · have h := hi.knows u
      have hnot := hi.not_holding hl hu
      refine ⟨?_, holds_of_not_holding hnot,
        fun hs => absurd (hs.symm.trans hstarted) Bool.false_ne_true,
        fun hs => absurd (hs.symm.trans hstarted) Bool.false_ne_true, fun _ => .inl hstarted,
        by rw [hstage]; exact h.initing, by rw [hstage]; exact h.up⟩
      rw [hnot, hlock]
      cases x.pc.holding <;> simp [hu.symm]

theorem Inv.hold {p : Pc} (hpc : (s.tx t).pc = p) (hhold : p.holding = true)
    (hhold' : x.pc.holding = true)
    (hlock : σ.lock = s.shared.lock) (hlog : σ.log = s.shared.log)
    (hstarted : σ.started = s.shared.started) (hstage : σ.stage = s.shared.stage)
    (hpassed : σ.passed = s.shared.passed) (hholds : Holds n m σ (proc t) x) :
    Inv n proc m₀ m (s.put t σ x) := by
  subst hpc
  have h := hi.knows t
  have hl := h.lock.1 hhold
  refine hi.holder (.inl hl) (by rw [hlog]; exact hi.serial) (fun hn => ?_)
    (by rw [hlock, hl, hhold']; rfl) (hstarted.trans (hi.of_lock hl)) hstage hpassed
    (h.up_of_holding hhold) (Pc.initing_of_holding hhold') hholds
  rw [hlock, hl] at hn
  cases hn

/-- A step that only moves the program counter outside of the lock, in the same part of the code. -/
theorem Inv.goto {p p' : Pc} (hpc : (s.tx t).pc = p) (hf : Frame m₀ t s.shared σ)
    (hp : p.outer = true) (hp' : p'.outer = true) (hinit : p'.initing = p.initing)
    (hstage : σ.stage = s.shared.stage) : Inv n proc m₀ m (s.put t σ ((s.tx t).goto p')) := by
  obtain ⟨hout, hne, hnl, -⟩ := Pc.ne_of_outer hp
  obtain ⟨hout', -, hl, hpub⟩ := Pc.ne_of_outer hp'
  refine hi.other hpc hf hout hout' (fun _ i h => absurd h (hpub i)) (fun _ h => absurd h hl)
    (fun h => .inl (hi.firstAt hpc hnl h)) (fun h => ?_) fun h _ => ?_
  · rw [hstage]
    exact (hi.knows t).initing (by rw [hpc, ← hinit]; exact h)
  · exact hf.up _ (hi.upAt hpc (hinit ▸ h) hne)

end

end Frames

section StepFrames

variable {s : Threads (Shared Q T) Tx T} {t : T}

theorem Inv.publish_frame (hi : Inv n proc m₀ m s) {i : ℕ}
    (hagree : s.shared.loc (proc t) i = if s.shared.started then s.shared.image i else m₀ i) :
    Frame m₀ t s.shared (s.shared.toShared (proc t) i) where
  lock := rfl
  log := rfl
  started := rfl
  image := by
    dsimp only [Shared.toShared]
    rw [hagree]
    cases hs : s.shared.started with
    | true => exact .inl (Function.update_eq_self i s.shared.image)
    | false =>
        refine .inr (.inr ⟨rfl, fun j => ?_⟩)
        rw [Function.update_apply]
        split
        · next hj => exact .inr (by rw [hj]; rfl)
        · exact .inl rfl
  loc q := .inl rfl
  initing _ _ _ h := h
  up _ h := h
  passed := hi.passed
  mono h := h

variable [DecidableEq Q]

theorem Inv.stage_frame (hi : Inv n proc m₀ m s) {g : Stage T} {σ : Shared Q T}
    (hσ : σ = { s.shared.setStage (proc t) g with passed := σ.passed, unlinked := σ.unlinked })
    (hinit : ∀ u, s.shared.stage (proc t) = .initing u → u = t)
    (hup : (s.shared.stage (proc t)).up = true → g.up = true)
    (hpassed : g.up = true → σ.passed = true) (hmono : s.shared.passed = true → σ.passed = true) :
    Frame m₀ t s.shared σ := by
  have hstage : ∀ q, σ.stage q = if q = proc t then g else s.shared.stage q := fun q => by
    rw [hσ]
    exact Function.update_apply _ _ _ _
  refine ⟨by rw [hσ]; rfl, by rw [hσ]; rfl, by rw [hσ]; rfl, .inl (by rw [hσ]; rfl),
    fun q => .inl (by rw [hσ]; rfl), fun q u hu h => ?_, fun q h => ?_, fun q h => ?_, hmono⟩
  · rw [hstage]
    split
    · next hq =>
        rw [hq] at h
        exact absurd (hinit u h) hu
    · exact h
  · rw [hstage]
    split
    · next hq => exact hup (hq ▸ h)
    · exact h
  · rw [hstage] at h
    split at h
    · exact hpassed h
    · exact hmono (hi.passed q h)

theorem assign_frame (hi : Inv n proc m₀ m s) (i : ℕ) (v : Byte)
    (h : s.shared.started = false ∨ (s.shared.stage (proc t)).up = false) :
    Frame m₀ t s.shared (s.shared.assign (proc t) i v) := by
  refine ⟨rfl, rfl, rfl, .inl rfl, fun q => ?_, fun _ _ _ h => h, fun _ h => h, hi.passed,
      fun h => h⟩
  by_cases hq : q = proc t
  · rw [hq]
    exact .inr h
  · exact .inl (Function.update_of_ne hq _ _)

end StepFrames

section Steps

variable [DecidableEq T] {s : Threads (Shared Q T) Tx T} {t : T}

section

variable (hi : Inv n proc m₀ m s)
include hi

theorem publish_inv {i : ℕ} (hpc : (s.tx t).pc = .publish i)
    (hagree : s.shared.loc (proc t) i = if s.shared.started then s.shared.image i else m₀ i) :
    Inv n proc m₀ m (s.put t (s.shared.toShared (proc t) i)
        ((s.tx t).goto (.publish (i + 1)))) := by
  refine hi.other hpc (hi.publish_frame hagree) rfl rfl (fun hs k hk j hj hn => ?_) nofun
    (fun h => .inl (hi.firstAt hpc nofun h)) nofun fun _ _ => hi.upAt hpc rfl nofun
  cases hk
  dsimp only [Shared.toShared]
  rw [Function.update_apply]
  split
  · next hji => rw [hagree, hs, hji]; rfl
  · exact (hi.knows t).publishing hs i hpc j (by omega) hn

theorem published_inv {i : ℕ} (hpc : (s.tx t).pc = .publish i) (hn : ¬i < n) :
    Inv n proc m₀ m (s.put t s.shared { s.tx t with pc := .lock, first := false }) :=
  hi.other hpc (hi.frame_of_eq rfl rfl rfl rfl rfl rfl rfl) rfl rfl nofun
    (fun hs _ j hj => (hi.knows t).publishing hs i hpc j (by omega) hj) (fun _ => .inr rfl) nofun
    fun _ _ => hi.upAt hpc rfl nofun

theorem lock_inv (hpc : (s.tx t).pc = .lock) (hfree : s.shared.lock = none) :
    Inv n proc m₀ m (s.put t
      { s.shared with lock := some t, started := true }
      { s.tx t with pc := .load 0, ops := [] }) := by
  have hsync : ∀ j < n, s.shared.image j = m j := by
    cases hs : s.shared.started with
    | true => exact hi.free hs hfree
    | false =>
        have hm := hi.serial
        rw [(hi.fresh hs).1] at hm
        obtain rfl : m₀ = m := hm
        exact (hi.knows t).locking hs hpc
  exact hi.holder (.inr hfree) hi.serial nofun rfl rfl rfl rfl (hi.upAt hpc rfl nofun) rfl
    ⟨rfl, hsync, nofun⟩

theorem unlock_inv (hpc : (s.tx t).pc = .unlock) :
    ∃ m', Inv n proc m₀ m' (s.put t
      { s.shared with lock := none, log := s.shared.log ++ [(s.tx t).ops] }
          ((s.tx t).goto .out)) := by
  have hl : s.shared.lock = some t := (hi.knows t).lock.1 (by rw [hpc]; rfl)
  obtain ⟨hlegal, himage⟩ := hi.holdsAt hpc
  exact ⟨final m (s.tx t).ops, hi.holder (.inl hl) (serialRun_append hi.serial ⟨hlegal, rfl⟩)
    (fun _ => himage) rfl (hi.of_lock hl) rfl rfl (hi.upAt hpc rfl nofun) rfl trivial⟩

theorem loaded_inv {i : ℕ} (hpc : (s.tx t).pc = .load i) (hn : ¬i < n) :
    Inv n proc m₀ m (s.put t s.shared ((s.tx t).goto .body)) := by
  obtain ⟨hops, himage, hloc⟩ := hi.holdsAt hpc
  dsimp only at hops
  refine hi.hold hpc rfl rfl rfl rfl rfl rfl rfl ⟨?_, himage, fun j hj => ?_⟩
  · rw [Tx.goto, hops]
    trivial
  · rw [Tx.goto, hops]
    exact hloc j (by omega) hj

theorem store_inv {i : ℕ} (hpc : (s.tx t).pc = .store i) (hn : i < n) :
    Inv n proc m₀ m (s.put t (s.shared.toShared (proc t) i) ((s.tx t).goto (.store (i + 1)))) := by
  obtain ⟨hlegal, himage, hloc⟩ := hi.holdsAt hpc
  refine hi.hold hpc rfl rfl rfl rfl rfl rfl rfl ⟨hlegal, fun j hj hjn => ?_, hloc⟩
  dsimp only [Shared.toShared]
  rw [Function.update_apply]
  split
  · next hji => rw [hloc i hn, hji]; rfl
  · exact himage j (by omega) hjn

theorem stored_inv {i : ℕ} (hpc : (s.tx t).pc = .store i) (hn : ¬i < n) :
    Inv n proc m₀ m (s.put t s.shared ((s.tx t).goto .epoch)) := by
  obtain ⟨hlegal, himage, -⟩ := hi.holdsAt hpc
  exact hi.hold hpc rfl rfl rfl rfl rfl rfl rfl ⟨hlegal, fun j hj => himage j (by omega) hj⟩

theorem initStore_inv {i : ℕ} (hpc : (s.tx t).pc = .initStore i)
    (hpassed : s.shared.passed = false) : Inv n proc m₀ m (s.put t
      (s.shared.toShared (proc t) i) ((s.tx t).goto (.initStore (i + 1)))) := by
  have hstarted : s.shared.started = false := by
    rw [Bool.eq_false_iff]
    intro h
    simp [hi.started h] at hpassed
  exact hi.goto hpc ⟨rfl, rfl, rfl, .inr (.inl ⟨hstarted, hpassed⟩), fun _ => .inl rfl,
    fun _ _ _ h => h, fun _ h => h, hi.passed, fun h => h⟩ rfl rfl rfl rfl

theorem begin_inv (hpc : (s.tx t).pc = .out) (hready : s.shared.stage (proc t) = .ready) :
    Inv n proc m₀ m (s.put t s.shared
      ((s.tx t).goto (if (s.tx t).first then .publish 0 else .lock))) := by
  have hup : (s.shared.stage (proc t)).up = true := by rw [hready]; rfl
  have hf := hi.frame_of_eq (t := t) (σ := s.shared) rfl rfl rfl rfl rfl rfl rfl
  cases hfirst : (s.tx t).first with
  | true =>
      refine hi.other hpc hf rfl rfl (fun _ i h j hj => ?_) nofun (fun h => ?_) nofun fun _ _ => hup
      · cases h
        cases hj
      · simp [Tx.goto, hfirst] at h
  | false =>
      have hs := hi.firstAt hpc nofun hfirst
      exact hi.other hpc hf rfl rfl nofun (fun h => by simp [hs] at h) (fun _ => .inl hs) nofun
        fun _ _ => hup

theorem commit_inv (hpc : (s.tx t).pc = .body) :
    Inv n proc m₀ m (s.put t s.shared ((s.tx t).goto (.store 0))) := by
  obtain ⟨hlegal, -, hloc⟩ := hi.holdsAt hpc
  refine hi.hold hpc rfl rfl rfl rfl rfl rfl rfl ⟨hlegal, fun j hj => ?_, hloc⟩
  exact absurd hj (Nat.not_lt_zero j)

theorem exit_inv (hpc : (s.tx t).pc = .out) (hready : s.shared.stage (proc t) = .ready) :
    Inv n proc m₀ m (s.put t s.shared ((s.tx t).goto (.exitStore 0))) :=
  hi.other hpc (hi.frame_of_eq rfl rfl rfl rfl rfl rfl rfl) rfl rfl nofun nofun
    (fun h => .inl (hi.firstAt hpc nofun h)) nofun fun _ _ => by rw [hready]; rfl

theorem exitLoad_inv (hpc : (s.tx t).pc = .exitLoad) {σ : Shared Q T} (hf : Frame m₀ t s.shared σ) :
    Inv n proc m₀ m (s.put t σ ((s.tx t).goto .out)) :=
  hi.other hpc hf rfl rfl nofun nofun (fun h => .inl (hi.firstAt hpc nofun h)) nofun
    fun _ h => absurd rfl h

end

variable [DecidableEq Q]

section

variable (hi : Inv n proc m₀ m s)
include hi

theorem load_inv {i : ℕ} (hpc : (s.tx t).pc = .load i) (hn : i < n) :
    Inv n proc m₀ m (s.put t (s.shared.toLocal (proc t) i) ((s.tx t).goto (.load (i + 1)))) := by
  obtain ⟨hops, himage, hloc⟩ := hi.holdsAt hpc
  refine hi.hold hpc rfl rfl rfl rfl rfl rfl rfl ⟨hops, himage, fun j hj hjn => ?_⟩
  dsimp only [Shared.toLocal, Shared.assign]
  rw [Function.update_self, Function.update_apply]
  split
  · next hji => rw [himage i hn, hji]
  · exact hloc j (by omega) hjn

theorem access_inv (hpc : (s.tx t).pc = .body) {i : ℕ} (hn : i < n) :
    Inv n proc m₀ m (s.put t s.shared
      { s.tx t with ops := .read i (s.shared.loc (proc t) i) :: (s.tx t).ops }) ∧
    ∀ v, Inv n proc m₀ m (s.put t (s.shared.assign (proc t) i v)
      { s.tx t with ops := .write i v :: (s.tx t).ops }) := by
  obtain ⟨hlegal, himage, hloc⟩ := hi.holdsAt hpc
  refine ⟨hi.hold hpc rfl (by rw [hpc]; rfl) rfl rfl rfl rfl rfl ?_, fun v =>
    hi.hold hpc rfl (by rw [hpc]; rfl) rfl rfl rfl rfl rfl ?_⟩
  · simp only [Holds, hpc]
    exact ⟨⟨(hloc i hn).symm, hlegal⟩, himage, hloc⟩
  · simp only [Holds, hpc]
    refine ⟨hlegal, himage, fun j hj => ?_⟩
    dsimp only [Shared.assign, final]
    rw [Function.update_self, Function.update_apply, Function.update_apply]
    split
    · rfl
    · exact hloc j hj

theorem init_inv (hpc : (s.tx t).pc = .out) (hfresh : s.shared.stage (proc t) = .fresh)
    (hfile : s.shared.unlinked = false) (nproc : ℤ) :
    Inv n proc m₀ m (s.put t (s.shared.opened.setStage (proc t) (.initing t))
      ((s.tx t).goto (.initCas nproc))) := by
  have hopened : s.shared.opened = s.shared := by simp [Shared.opened, hfile]
  rw [hopened]
  refine hi.other hpc (hi.stage_frame rfl ?_ ?_ nofun fun h => h) rfl rfl nofun nofun
    (fun h => .inl (hi.firstAt hpc nofun h)) (fun _ => Function.update_self _ _ _) nofun
  · simp [hfresh]
  · simp [hfresh, Stage.up]

theorem barrier_inv (hpc : (s.tx t).pc = .barrier) :
    Inv n proc m₀ m (s.put t { s.shared.setStage (proc t) .ready with passed := true }
      ((s.tx t).goto .out)) := by
  have hstage := (hi.knows t).initing (by rw [hpc]; rfl)
  refine hi.other hpc (hi.stage_frame rfl (fun u h => ?_) (fun _ => rfl) (fun _ => rfl)
    fun _ => rfl) rfl rfl nofun nofun (fun h => .inl (hi.firstAt hpc nofun h)) nofun
    fun _ h => absurd rfl h
  rw [hstage] at h
  cases h
  rfl

theorem inv_step {s' : Threads (Shared Q T) Tx T} {l : T × Call} (hs : step n proc s l = some s')
    (hok : Agreed n proc m₀ s l s') : ∃ m', Inv n proc m₀ m' s' := by
  obtain ⟨t, c⟩ := l
  obtain ⟨σ, x, hnext, rfl⟩ := Threads.step_eq_some hs
  have heq := fun {t} => hi.frame_of_eq (t := t) (σ := s.shared) rfl rfl rfl rfl rfl rfl rfl
  unfold Agreed at hok
  dsimp only at hok hnext ⊢
  unfold next at hnext
  dsimp only at hnext
  split at hnext <;> try cases hnext
  · next nproc hpc =>
      split at hnext <;> cases hnext
      · next hfresh =>
          rw [hpc] at hok
          exact ⟨m, init_inv hi hpc hfresh hok _⟩
  · next nproc hpc =>
      split at hnext
      all_goals
        cases hnext
        exact ⟨m, hi.goto hpc (hi.frame_of_eq rfl rfl rfl rfl rfl rfl rfl) rfl rfl rfl rfl⟩
  · next hpc => exact ⟨m, hi.goto hpc (hi.frame_of_eq rfl rfl rfl rfl rfl rfl rfl) rfl rfl rfl rfl⟩
  · next i hpc =>
      rw [hpc] at hok
      split at hnext <;> cases hnext
      · exact ⟨m, initStore_inv hi hpc hok⟩
      · exact ⟨m, hi.goto hpc heq rfl rfl rfl rfl⟩
  · next i hpc =>
      have hdown : (s.shared.stage (proc t)).up = false := by
        rw [(hi.knows t).initing (by rw [hpc]; rfl)]
        rfl
      split at hnext <;> cases hnext
      · exact ⟨m, hi.goto hpc (assign_frame hi i _ (.inr hdown)) rfl rfl rfl rfl⟩
      · exact ⟨m, hi.goto hpc heq rfl rfl rfl rfl⟩
  · next hpc => exact ⟨m, hi.goto hpc (hi.frame_of_eq rfl rfl rfl rfl rfl rfl rfl) rfl rfl rfl rfl⟩
  · next hpc =>
      split at hnext <;> cases hnext
      · rw [Threads.put_self]
        exact ⟨m, hi⟩
      · exact ⟨m, barrier_inv hi hpc⟩
  · next i v hpc =>
      rw [hpc] at hok
      refine ⟨m, hi.other hpc (assign_frame hi i v (.inl hok)) rfl (by rw [hpc]; rfl)
        (fun _ k h => ?_) (fun _ h => ?_) (fun h => .inl (hi.firstAt hpc nofun h)) (fun h => ?_)
        fun _ h => absurd hpc h⟩
      · simp [hpc] at h
      · simp [hpc] at h
      · simp [hpc, Pc.initing] at h
  · next hpc =>
      split at hnext <;> cases hnext
      · next hready => exact ⟨m, begin_inv hi hpc hready⟩
  · next i hpc =>
      rw [hpc] at hok
      split at hnext <;> cases hnext
      · next hn => exact ⟨m, publish_inv hi hpc (hok hn)⟩
      · next hn => exact ⟨m, published_inv hi hpc hn⟩
  · next hpc =>
      split at hnext <;> cases hnext
      · next hfree => exact ⟨m, lock_inv hi hpc hfree⟩
      · rw [Threads.put_self]
        exact ⟨m, hi⟩
  · next i hpc =>
      split at hnext <;> cases hnext
      · next hn => exact ⟨m, load_inv hi hpc hn⟩
      · next hn => exact ⟨m, loaded_inv hi hpc hn⟩
  · next i hpc =>
      split at hnext <;> cases hnext
      · next hn => exact ⟨m, (access_inv hi hpc hn).1⟩
  · next i v hpc =>
      split at hnext <;> cases hnext
      · next hn => exact ⟨m, (access_inv hi hpc hn).2 v⟩
  · next hpc => exact ⟨m, commit_inv hi hpc⟩
  · next i hpc =>
      split at hnext <;> cases hnext
      · next hn => exact ⟨m, store_inv hi hpc hn⟩
      · next hn => exact ⟨m, stored_inv hi hpc hn⟩
  · next hpc => exact ⟨m, hi.hold hpc rfl rfl rfl rfl rfl rfl rfl (hi.holdsAt hpc)⟩
  · next hpc => exact unlock_inv hi hpc
  · next hpc =>
      split at hnext <;> cases hnext
      · next hready => exact ⟨m, exit_inv hi hpc hready⟩
  · next i hpc =>
      rw [hpc] at hok
      split at hnext <;> cases hnext
      · next hn => exact ⟨m, hi.goto hpc (hi.publish_frame (hok hn)) rfl rfl rfl rfl⟩
      · exact ⟨m, hi.goto hpc heq rfl rfl rfl rfl⟩
  · next hpc => exact ⟨m, hi.goto hpc (hi.frame_of_eq rfl rfl rfl rfl rfl rfl rfl) rfl rfl rfl rfl⟩
  · next hpc =>
      have hup := hi.upAt hpc rfl nofun
      split at hnext <;> cases hnext
      · refine ⟨m, exitLoad_inv hi hpc (hi.stage_frame rfl (fun u h => ?_) (fun _ => rfl)
          (fun _ => hi.passed _ hup) fun h => h)⟩
        simp [h, Stage.up] at hup
      · exact ⟨m, exitLoad_inv hi hpc heq⟩

end

end Steps

theorem inv_init [DecidableEq Q] [DecidableEq T] (image : ℕ → Byte) (loc : Q → ℕ → Byte) :
    Inv n proc m₀ m₀ (init T image loc) where
  serial := rfl
  free := nofun
  fresh _ := ⟨rfl, rfl⟩
  passed := nofun
  started := nofun
  knows _ := ⟨⟨nofun, nofun⟩, trivial, nofun, nofun, nofun, nofun, fun _ h => absurd rfl h⟩

theorem inv_run [DecidableEq Q] [DecidableEq T] {image : ℕ → Byte} {loc : Q → ℕ → Byte}
    {s : Threads (Shared Q T) Tx T}
    (hr : Run (step n proc) (Agreed n proc m₀) (init T image loc) s) :
    ∃ m, Inv n proc m₀ m s := by
  refine hr.induction_on (P := fun s => ∃ m, Inv n proc m₀ m s) ⟨m₀, inv_init image loc⟩ ?_
  rintro s₁ l s₂ - ⟨m, hi⟩ hs hok
  exact inv_step hi hs hok

/-- In a run that agrees on the initial values, the transactions of all processes are serial in the
order in which they unlock: while the lock is free the file has what they have left, and the
thread in a transaction sees what they and its own stores have left. -/
theorem serial_of_agreed [DecidableEq Q] [DecidableEq T] (image : ℕ → Byte) (loc : Q → ℕ → Byte)
    {s : Threads (Shared Q T) Tx T}
    (hr : Run (step n proc) (Agreed n proc m₀) (init T image loc) s) :
    ∃ m, SerialRun m₀ s.shared.log m ∧
      (s.shared.started = true → s.shared.lock = none → ∀ j < n, s.shared.image j = m j) ∧
      ∀ t, (s.tx t).pc = .body → s.shared.lock = some t ∧ Legal m (s.tx t).ops ∧
        ∀ j < n, s.shared.loc (proc t) j = final m (s.tx t).ops j := by
  obtain ⟨m, hi⟩ := inv_run hr
  refine ⟨m, hi.serial, hi.free, fun t hpc => ⟨(hi.knows t).lock.1 (by rw [hpc]; rfl), ?_⟩⟩
  obtain ⟨hlegal, -, hloc⟩ := hi.holdsAt hpc
  exact ⟨hlegal, hloc⟩

/-- The calls of `tm_init` of two processes with one byte of symbols. -/
def initBoth (t u : Bool) : List (Bool × Call) :=
  .flatten [Threads.calls t [.init 2, .tau, .tau, .tau, .tau, .tau],
    Threads.calls u [.init 2, .tau, .tau, .tau, .tau, .tau], Threads.calls t [.tau]]

/-- A transaction that reads a byte and stores to it, from the lock on. -/
def readWrite (t : Bool) (v : Byte) : List (Bool × Call) :=
  Threads.calls t [.tau, .tau, .tau, .read 0, .write 0 v, .commit, .tau, .tau, .tau, .tau]

/-- Both processes publish their symbols before the first transaction, and count up. -/
theorem serial_of_agreed_two : ∃ s : Threads (Shared Bool Bool) Tx Bool,
    Run (step 1 id) (Agreed 1 id fun _ => 0) (init Bool (fun _ => 0) fun _ _ => 0) s ∧
    s.shared.log = [[.write 0 1, .read 0 0], [.write 0 2, .read 0 1]] ∧
    ∃ m, SerialRun (fun _ => 0) s.shared.log m ∧ s.shared.image 0 = m 0 := by
  obtain ⟨s, hr, hlog, hstarted, hlock⟩ : ∃ s : Threads (Shared Bool Bool) Tx Bool,
      Run (step 1 id) (Agreed 1 id fun _ => 0) (init Bool (fun _ => 0) fun _ _ => 0) s ∧
      s.shared.log = [[.write 0 1, .read 0 0], [.write 0 2, .read 0 1]] ∧
      s.shared.started = true ∧ s.shared.lock = none :=
    exists_run_of_exec (.flatten [initBoth false true, Threads.calls false [.begin, .tau, .tau],
      Threads.calls true [.begin, .tau, .tau], readWrite false 1, readWrite true 2])
      (by decide +kernel)
  obtain ⟨m, hserial, hfree, -⟩ := serial_of_agreed _ _ hr
  exact ⟨s, hr, hlog, m, hserial, hfree hstarted hlock 0 Nat.one_pos⟩

/-- The first transaction of the second process publishes its symbols over the update of the first
one. -/
theorem not_serializable_of_first_begin : ∃ s : Threads (Shared Bool Bool) Tx Bool,
    Run (step 1 id) anyStep (init Bool (fun _ => 0) fun _ _ => 0) s ∧
    ¬Serializable (fun _ => 0) s.shared.log := by
  obtain ⟨s, hr, hlog⟩ : ∃ s : Threads (Shared Bool Bool) Tx Bool,
      Run (step 1 id) anyStep (init Bool (fun _ => 0) fun _ _ => 0) s ∧
      s.shared.log = [[.write 0 1, .read 0 0], [.write 0 1, .read 0 0]] :=
    exists_run_of_exec (.flatten [initBoth false true, Threads.calls false [.begin, .tau, .tau],
      readWrite false 1, Threads.calls true [.begin, .tau, .tau], readWrite true 1])
      (by decide +kernel)
  refine ⟨s, hr, ?_⟩
  rw [hlog]
  exact not_serializable_of_lost (by decide)

end DistributedSGL
