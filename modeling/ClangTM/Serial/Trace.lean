import Mathlib.Logic.Function.Basic
import Mathlib.Tactic.Common

/-!
# Traces of transactions and their sequential meaning

A trace is what one transaction did, newest operation first: the reads with the
values they returned and the writes. `final m t` is the memory that running
the writes of `t` on `m` leaves, and `Legal m t` says that every read of `t`
returned what a run of `t` alone on `m` would have returned at that point.

A read of a word that the trace has written before it depends on the trace
only; the other reads, `external t`, are the ones that depend on the memory.
`legal_iff` separates the two, and it is the form in which a concurrent
execution establishes legality.
-/

namespace Serial

variable {A V : Type*}

/-- One operation of a transaction: a read with the value it returned, or a
write. -/
inductive Op (A V : Type*) where
  | read (a : A) (v : V)
  | write (a : A) (v : V)
deriving DecidableEq, Repr

/-- The operations of one transaction, newest first. -/
abbrev Trace (A V : Type*) := List (Op A V)

variable [DecidableEq A] {t : Trace A V} {m : A → V}

/-- The memory left by running the writes of a trace. -/
def final (m : A → V) : Trace A V → A → V
  | [] => m
  | .read _ _ :: t => final m t
  | .write a v :: t => Function.update (final m t) a v

/-- Every read returned what a run of the trace alone would have returned. -/
def Legal (m : A → V) : Trace A V → Prop
  | [] => True
  | .read a v :: t => final m t a = v ∧ Legal m t
  | .write _ _ :: t => Legal m t

/-- The value last written to `b`, if the trace writes it. -/
def lastWrite : Trace A V → A → Option V
  | [], _ => none
  | .read _ _ :: t, b => lastWrite t b
  | .write a v :: t, b => if b = a then some v else lastWrite t b

/-- The reads that were not preceded by a write of the same word. -/
def external : Trace A V → List (A × V)
  | [] => []
  | .read a v :: t =>
      match lastWrite t a with
      | some _ => external t
      | none => (a, v) :: external t
  | .write _ _ :: t => external t

/-- The reads of words written before return the value written last. -/
def SelfConsistent : Trace A V → Prop
  | [] => True
  | .read a v :: t => (∀ w, lastWrite t a = some w → w = v) ∧ SelfConsistent t
  | .write _ _ :: t => SelfConsistent t

/-- The trace reads `a` from memory or writes it. -/
def Touches (t : Trace A V) (a : A) : Prop :=
  (∃ w, lastWrite t a = some w) ∨ ∃ v, (a, v) ∈ external t

@[simp] theorem final_nil (m : A → V) : final m [] = m := rfl

@[simp] theorem lastWrite_nil (b : A) : lastWrite ([] : Trace A V) b = none := rfl

@[simp] theorem lastWrite_read (a b : A) (v : V) (t : Trace A V) :
    lastWrite (.read a v :: t) b = lastWrite t b := rfl

theorem lastWrite_write (a b : A) (v : V) (t : Trace A V) :
    lastWrite (.write a v :: t) b = if b = a then some v else lastWrite t b := rfl

@[simp] theorem external_nil : external ([] : Trace A V) = [] := rfl

@[simp] theorem external_write (a : A) (v : V) (t : Trace A V) :
    external (.write a v :: t) = external t := rfl

theorem external_read_of_none {a : A} {v : V} (h : lastWrite t a = none) :
    external (.read a v :: t) = (a, v) :: external t := by
  simp [external, h]

theorem external_read_of_some {a : A} {v w : V} (h : lastWrite t a = some w) :
    external (.read a v :: t) = external t := by
  simp [external, h]

theorem final_eq_getD (m : A → V) (t : Trace A V) (b : A) :
    final m t b = (lastWrite t b).getD (m b) := by
  induction t with
  | nil => rfl
  | cons o t ih =>
      cases o with
      | read a v => exact ih
      | write a v =>
          rw [final, lastWrite_write]
          by_cases hb : b = a
          · subst hb
            simp
          · simp [hb, ih]

theorem final_of_none {b : A} (h : lastWrite t b = none) : final m t b = m b := by
  simp [final_eq_getD, h]

theorem final_of_some {b : A} {v : V} (h : lastWrite t b = some v) : final m t b = v := by
  simp [final_eq_getD, h]

/-- A trace without writes leaves the memory as it is. -/
theorem final_of_readOnly (h : ∀ a, lastWrite t a = none) : final m t = m :=
  funext fun a => final_of_none (h a)

/-- Legality splits into a part about the trace alone and a part about the
memory the external reads were served from. -/
theorem legal_iff (m : A → V) (t : Trace A V) :
    Legal m t ↔ SelfConsistent t ∧ ∀ p ∈ external t, m p.1 = p.2 := by
  induction t with
  | nil => simp [Legal, SelfConsistent]
  | cons o t ih =>
      cases o with
      | write a v => simpa [Legal, SelfConsistent] using ih
      | read a v =>
          cases h : lastWrite t a with
          | none =>
              rw [external_read_of_none h, Legal, SelfConsistent, ih, final_of_none h]
              simp only [h, reduceCtorEq, false_implies, implies_true, true_and,
                List.forall_mem_cons]
              tauto
          | some w =>
              rw [external_read_of_some h, Legal, SelfConsistent, ih, final_of_some h]
              simp only [h, Option.some.injEq, forall_eq']
              tauto

/-- A trace stays legal when the memory changes only at words it does not read
from memory. -/
theorem Legal.congr {m m' : A → V} (h : Legal m t) (hm : ∀ p ∈ external t, m' p.1 = m p.1) :
    Legal m' t := by
  rw [legal_iff] at h ⊢
  exact ⟨h.1, fun p hp => (hm p hp).trans (h.2 p hp)⟩

/-- Transactions run one after another, from `m` to `m'`: each is legal on the
memory that the ones before it left. -/
def SerialRun (m : A → V) : List (Trace A V) → (A → V) → Prop
  | [], m' => m = m'
  | t :: ts, m' => Legal m t ∧ SerialRun (final m t) ts m'

theorem serialRun_append {m m' m'' : A → V} {ts ts' : List (Trace A V)}
    (h : SerialRun m ts m') (h' : SerialRun m' ts' m'') :
    SerialRun m (ts ++ ts') m'' := by
  induction ts generalizing m with
  | nil =>
      obtain rfl : m = m' := h
      exact h'
  | cons t ts ih => exact ⟨h.1, ih h.2⟩

theorem exists_of_serialRun_append {m m'' : A → V} {ts ts' : List (Trace A V)}
    (h : SerialRun m (ts ++ ts') m'') : ∃ m', SerialRun m ts m' ∧ SerialRun m' ts' m'' := by
  induction ts generalizing m with
  | nil => exact ⟨m, rfl, h⟩
  | cons t ts ih =>
      obtain ⟨m', h₁, h₂⟩ := ih h.2
      exact ⟨m', ⟨h.1, h₁⟩, h₂⟩

/-- Legal transactions without writes run in any number at one memory. -/
theorem serialRun_readOnly {ts : List (Trace A V)}
    (h : ∀ t ∈ ts, Legal m t ∧ ∀ a, lastWrite t a = none) : SerialRun m ts m := by
  induction ts with
  | nil => rfl
  | cons t ts ih =>
      obtain ⟨ht, hw⟩ := h t List.mem_cons_self
      refine ⟨ht, ?_⟩
      rw [final_of_readOnly hw]
      exact ih fun u hu => h u (List.mem_cons_of_mem t hu)

end Serial
