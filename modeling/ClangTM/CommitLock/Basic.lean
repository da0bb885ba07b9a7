import ClangTM.Transition.Threads

/-!
# Reads that a commit lock protects

Threads read memory at any time, and one thread at a time, the holder of a lock, changes it. A
word belongs to a slot, and a slot has a version. The holder marks the slots it is going to
write as dirty, writes, and takes a mark away when it has given the slot a version above `cap`,
which bounds the versions that the others have noted.

A read with a version is `Fresh` as long as its value is in memory whenever its slot is not
dirty and has no larger version. Reads that take place in the middle of a write-back are
fresh, too: their slots are dirty, and have a larger version when they are not dirty any more.
A `System` is one of threads whose knowledge is stable when the holder moves; `System.Inv.put`
is the induction step for its runs.
-/

namespace CommitLock

open Transition

structure Seen (A V : Type*) where
  addr : A
  ver : ℕ
  val : V
deriving DecidableEq

structure Core (A V L T : Type*) where
  mem : A → V
  ver : L → ℕ
  cap : L → ℕ
  dirty : List L
  holder : Option T
  /-- How many transactions have committed. -/
  commits : ℕ

variable {A V L T : Type*} {slot : A → L} {c c' : Core A V L T} {r : Seen A V}

/-- If the slot of a read is not dirty and has no larger version, memory has the value. -/
structure Fresh (slot : A → L) (c : Core A V L T) (r : Seen A V) : Prop where
  le : r.ver ≤ c.cap (slot r.addr)
  value : slot r.addr ∉ c.dirty → c.ver (slot r.addr) ≤ r.ver → c.mem r.addr = r.val

/-- What the holder can do: a word keeps its value unless its slot is dirty or gets a version
above `cap`. -/
structure Evolves (slot : A → L) (c c' : Core A V L T) : Prop where
  cap : ∀ ℓ, c.cap ℓ ≤ c'.cap ℓ
  commits : c.commits ≤ c'.commits
  same : ∀ a, slot a ∉ c'.dirty → c'.ver (slot a) ≤ c.cap (slot a) →
    slot a ∉ c.dirty ∧ c.ver (slot a) ≤ c'.ver (slot a) ∧ c'.mem a = c.mem a

theorem Fresh.evolves (h : Fresh slot c r) (he : Evolves slot c c') : Fresh slot c' r where
  le := h.le.trans (he.cap _)
  value hdirty hver := by
    obtain ⟨hdirty', hle, hmem⟩ := he.same r.addr hdirty (hver.trans h.le)
    rw [hmem]
    exact h.value hdirty' (hle.trans hver)

namespace Evolves

/-- A step that changes none of it. -/
theorem of_eq (hmem : c'.mem = c.mem) (hver : c'.ver = c.ver) (hcap : c'.cap = c.cap)
    (hdirty : c'.dirty = c.dirty) (hcommits : c'.commits = c.commits) : Evolves slot c c' where
  cap ℓ := (congrFun hcap ℓ).ge
  commits := hcommits.ge
  same a ha _ := ⟨by rwa [hdirty] at ha, (congrFun hver _).ge, congrFun hmem a⟩

/-- Slots are marked. -/
theorem mark (hmem : c'.mem = c.mem) (hver : c'.ver = c.ver) (hcap : ∀ ℓ, c.cap ℓ ≤ c'.cap ℓ)
    (hdirty : c.dirty = []) (hcommits : c.commits ≤ c'.commits) : Evolves slot c c' where
  cap := hcap
  commits := hcommits
  same a _ _ := ⟨by simp [hdirty], (congrFun hver _).ge, congrFun hmem a⟩

/-- Words of dirty slots are written. -/
theorem write (hmem : ∀ a, slot a ∉ c.dirty → c'.mem a = c.mem a) (hver : c'.ver = c.ver)
    (hcap : c'.cap = c.cap) (hdirty : c'.dirty = c.dirty) (hcommits : c'.commits = c.commits) :
    Evolves slot c c' where
  cap ℓ := (congrFun hcap ℓ).ge
  commits := hcommits.ge
  same a ha _ := by
    rw [hdirty] at ha
    exact ⟨ha, (congrFun hver _).ge, hmem a ha⟩

/-- Versions grow, and dirty slots whose versions are above `cap` lose their marks. -/
theorem stamp (hmem : c'.mem = c.mem) (hver : ∀ ℓ, c.ver ℓ ≤ c'.ver ℓ)
    (hcap : ∀ ℓ, c.cap ℓ ≤ c'.cap ℓ)
    (hdirty : ∀ ℓ ∈ c.dirty, ℓ ∈ c'.dirty ∨ c.cap ℓ < c'.ver ℓ)
    (hcommits : c'.commits = c.commits) : Evolves slot c c' where
  cap := hcap
  commits := hcommits.ge
  same a ha hle := by
    refine ⟨fun hmem' => ?_, hver _, congrFun hmem a⟩
    rcases hdirty _ hmem' with h | h
    · exact ha h
    · omega

end Evolves

/-- Threads, one of which holds the lock: what reads depend on, which threads hold the lock,
what is known of the shared state, and what a thread knows. -/
structure System (A V L T S X : Type) where
  slot : A → L
  core : S → Core A V L T
  holding : X → Bool
  Shape : S → Prop
  Knows : S → X → Prop
  stable : ∀ {σ σ' : S} {x : X}, Knows σ x → Evolves slot (core σ) (core σ') →
    holding x = false → Knows σ' x

namespace System

variable {A V L T S X : Type} (M : System A V L T S X)

structure Inv (s : Threads S X T) : Prop where
  shape : M.Shape s.shared
  holder : ∀ t, M.holding (s.tx t) = true ↔ (M.core s.shared).holder = some t
  knows : ∀ t, M.Knows s.shared (s.tx t)

variable {M} [DecidableEq T] {s : Threads S X T} {t : T} {σ : S} {x : X}

omit [DecidableEq T] in
theorem Inv.not_holding (h : M.Inv s) {u : T} (hu : u ≠ t)
    (ht : (M.core s.shared).holder = some t ∨ (M.core s.shared).holder = none) :
    M.holding (s.tx u) = false := by
  rw [Bool.eq_false_iff, ne_eq, h.holder u]
  rcases ht with ht | ht <;> simp [ht, hu.symm]

/-- A step of the holder, or of a thread that takes the lock. -/
theorem Inv.put (h : M.Inv s)
    (ht : (M.core s.shared).holder = some t ∨ (M.core s.shared).holder = none)
    (he : Evolves M.slot (M.core s.shared) (M.core σ)) (hshape : M.Shape σ)
    (hx : (M.core σ).holder = if M.holding x then some t else none) (hknows : M.Knows σ x) :
    M.Inv (s.put t σ x) where
  shape := hshape
  holder := by
    refine Threads.forall_put (P := fun u y => M.holding y = true ↔ (M.core σ).holder = some u)
      ?_ fun u hu => ?_
    · rw [hx]
      cases M.holding x <;> simp
    · rw [hx, h.not_holding hu ht]
      cases M.holding x <;> simp [hu.symm]
  knows := Threads.forall_put (P := fun _ y => M.Knows σ y) hknows fun u hu =>
    M.stable (h.knows u) he (h.not_holding hu ht)

/-- A step that changes nothing that the others know of. -/
theorem Inv.put_same (h : M.Inv s) (hcore : M.core σ = M.core s.shared) (hshape : M.Shape σ)
    (hsame : ∀ y, M.Knows s.shared y → M.Knows σ y)
    (hx : M.holding x = M.holding (s.tx t)) (hknows : M.Knows σ x) : M.Inv (s.put t σ x) where
  shape := hshape
  holder := by
    refine Threads.forall_put (P := fun u y => M.holding y = true ↔ (M.core σ).holder = some u)
      ?_ fun u _ => ?_
    · rw [hcore, hx]
      exact h.holder t
    · rw [hcore]
      exact h.holder u
  knows := Threads.forall_put (P := fun _ y => M.Knows σ y) hknows fun u _ =>
    hsame _ (h.knows u)

end System

end CommitLock
