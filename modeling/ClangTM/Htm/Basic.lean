import ClangTM.Serial.RedoLog

/-!
# Hardware transactions

A machine with a memory and at most one hardware transaction of every thread. A transaction
buffers its writes and remembers the locations it has read. It ends without effect as soon as
another thread stores to a location that it has read or written, or loads one that it has
written, be it inside a transaction or outside; otherwise `xend` writes its buffer to memory.

`Step t` says what the other threads can rely on when `t` moves: a transaction that is still
running is as it was, and memory has not changed where it has read. No running transaction has
read what another one has written (`Apart`).
-/

namespace Htm

open Serial

structure Htx (L V : Type*) where
  reads : List L := []
  writes : List (L × V) := []

structure Machine (L V T : Type*) where
  mem : L → V
  htm : T → Option (Htx L V)

namespace Machine

variable {L V T : Type*} [DecidableEq L] [DecidableEq T] (μ : Machine L V T) (t : T) (l : L) (v : V)
  (h : Htx L V)

/-- The transactions that go on when `t` loads from `l`. -/
def unwritten : T → Option (Htx L V) := fun u =>
  (μ.htm u).filter fun k => u = t || (k.writes.lookup l).isNone

/-- The transactions that go on when `t` stores to `l`. -/
def untouched : T → Option (Htx L V) := fun u =>
  (μ.htm u).filter fun k => u = t || ((k.writes.lookup l).isNone && l ∉ k.reads)

def load : Machine L V T := { μ with htm := μ.unwritten t l }

def store : Machine L V T := ⟨Function.update μ.mem l v, μ.untouched t l⟩

def xbegin : Machine L V T := { μ with htm := Function.update μ.htm t (some {}) }

def xabort : Machine L V T := { μ with htm := Function.update μ.htm t none }

def value : V := (h.writes.lookup l).getD (μ.mem l)

def xload : Machine L V T :=
  { μ with htm := Function.update (μ.unwritten t l) t (some { h with reads := l :: h.reads }) }

def xstore : Machine L V T :=
  { μ with
    htm := Function.update (μ.untouched t l) t (some { h with writes := putBack l v h.writes }) }

def xend : Machine L V T := ⟨fun l => μ.value l h, Function.update μ.htm t none⟩

variable {μ t l v h} {μ' : Machine L V T}

omit [DecidableEq L] in
@[simp] theorem xbegin_htm_self : (μ.xbegin t).htm t = some {} := Function.update_self _ _ _

omit [DecidableEq L] in
@[simp] theorem xabort_htm_self : (μ.xabort t).htm t = none := Function.update_self _ _ _

@[simp] theorem xload_htm_self :
    (μ.xload t l h).htm t = some { h with reads := l :: h.reads } := Function.update_self _ _ _

@[simp] theorem xstore_htm_self :
    (μ.xstore t l v h).htm t = some { h with writes := putBack l v h.writes } :=
  Function.update_self _ _ _

@[simp] theorem xend_htm_self : (μ.xend t h).htm t = none := Function.update_self _ _ _

@[simp] theorem load_htm_self : (μ.load t l).htm t = μ.htm t := by
  cases h : μ.htm t <;> simp [load, unwritten, h]

@[simp] theorem store_htm_self : (μ.store t l v).htm t = μ.htm t := by
  cases h : μ.htm t <;> simp [store, untouched, h]

theorem unwritten_eq_some {u : T} {k : Htx L V} :
    μ.unwritten t l u = some k ↔ μ.htm u = some k ∧ (u ≠ t → k.writes.lookup l = none) := by
  simp [unwritten, Option.filter_eq_some_iff, Decidable.imp_iff_not_or]

theorem untouched_eq_some {u : T} {k : Htx L V} :
    μ.untouched t l u = some k ↔
      μ.htm u = some k ∧ (u ≠ t → k.writes.lookup l = none ∧ l ∉ k.reads) := by
  simp [untouched, Option.filter_eq_some_iff, Decidable.imp_iff_not_or]

/-- No transaction has read what another one has written. -/
def Apart (μ : Machine L V T) : Prop :=
  ∀ t u h k, t ≠ u → μ.htm t = some h → μ.htm u = some k →
    ∀ l, h.writes.lookup l ≠ none → l ∉ k.reads

structure Step (t : T) (μ μ' : Machine L V T) : Prop where
  others : ∀ u k, u ≠ t → μ'.htm u = some k →
    μ.htm u = some k ∧ ∀ l ∈ k.reads, μ'.mem l = μ.mem l
  own : ∀ h u k, u ≠ t → μ'.htm t = some h → μ'.htm u = some k →
    (∀ l, h.writes.lookup l ≠ none → l ∉ k.reads) ∧ ∀ l, k.writes.lookup l ≠ none → l ∉ h.reads

theorem Step.apart (hs : Step t μ μ') (ha : μ.Apart) : μ'.Apart := by
  intro a b h k hne hh hk
  by_cases hat : a = t
  · subst hat
    exact (hs.own h b k hne.symm hh hk).1
  · by_cases hbt : b = t
    · subst hbt
      exact (hs.own k a h hat hk hh).2
    · exact ha a b h k hne (hs.others a h hat hh).1 (hs.others b k hbt hk).1

omit [DecidableEq T] in
theorem Step.htm_eq_none (hs : Step t μ μ') {u : T} (hu : u ≠ t) (h : μ.htm u = none) :
    μ'.htm u = none := by
  cases hk : μ'.htm u with
  | none => rfl
  | some k =>
      rw [(hs.others u k hu hk).1] at h
      cases h

omit [DecidableEq T] in
theorem Step.refl (ha : μ.Apart) : Step t μ μ where
  others _ _ _ hk := ⟨hk, fun _ _ => rfl⟩
  own h u k hu hh hk := ⟨ha t u h k hu.symm hh hk, ha u t k h hu hk hh⟩

theorem load_step (ha : μ.Apart) : Step t μ (μ.load t l) where
  others _ _ _ hk := ⟨(unwritten_eq_some.1 hk).1, fun _ _ => rfl⟩
  own h u k hu hh hk :=
    ⟨ha t u h k hu.symm (unwritten_eq_some.1 hh).1 (unwritten_eq_some.1 hk).1,
      ha u t k h hu (unwritten_eq_some.1 hk).1 (unwritten_eq_some.1 hh).1⟩

theorem store_step (ha : μ.Apart) : Step t μ (μ.store t l v) where
  others u k hu hk := by
    obtain ⟨hk, hfree⟩ := untouched_eq_some.1 hk
    refine ⟨hk, fun l' hl' => Function.update_of_ne ?_ _ _⟩
    rintro rfl
    exact (hfree hu).2 hl'
  own h u k hu hh hk :=
    ⟨ha t u h k hu.symm (untouched_eq_some.1 hh).1 (untouched_eq_some.1 hk).1,
      ha u t k h hu (untouched_eq_some.1 hk).1 (untouched_eq_some.1 hh).1⟩

/-- A move of `t` that gives it the transaction `o`. -/
theorem Step.of_update {m' : L → V} {f : T → Option (Htx L V)} {o : Option (Htx L V)}
    (hf : ∀ u k, u ≠ t → f u = some k → μ.htm u = some k ∧ ∀ l ∈ k.reads, m' l = μ.mem l)
    (ho : ∀ h u k, u ≠ t → o = some h → f u = some k →
      (∀ l, h.writes.lookup l ≠ none → l ∉ k.reads) ∧
        ∀ l, k.writes.lookup l ≠ none → l ∉ h.reads) :
    Step t μ ⟨m', Function.update f t o⟩ where
  others u k hu hk := by
    dsimp only at hk
    rw [Function.update_of_ne hu] at hk
    exact hf u k hu hk
  own h u k hu hh hk := by
    dsimp only at hh hk
    rw [Function.update_self] at hh
    rw [Function.update_of_ne hu] at hk
    exact ho h u k hu hh hk

theorem xbegin_step : Step t μ (μ.xbegin t) := by
  refine .of_update (fun u k _ hk => ⟨hk, fun _ _ => rfl⟩) fun h u k _ hh _ => ?_
  cases hh
  exact ⟨fun l hl => absurd rfl hl, fun l _ hl => by cases hl⟩

theorem xabort_step : Step t μ (μ.xabort t) :=
  .of_update (fun u k _ hk => ⟨hk, fun _ _ => rfl⟩) fun h u k _ hh _ => by cases hh

theorem xload_step (ha : μ.Apart) (ht : μ.htm t = some h) : Step t μ (μ.xload t l h) := by
  refine .of_update (fun u k _ hk => ⟨(unwritten_eq_some.1 hk).1, fun _ _ => rfl⟩)
    fun h' u k hu hh hk => ?_
  cases hh
  obtain ⟨hk, hfree⟩ := unwritten_eq_some.1 hk
  refine ⟨ha t u h k hu.symm ht hk, fun l' hl' hmem => ?_⟩
  rcases List.mem_cons.1 hmem with rfl | hmem
  · exact hl' (hfree hu)
  · exact ha u t k h hu hk ht l' hl' hmem

theorem xstore_step (ha : μ.Apart) (ht : μ.htm t = some h) : Step t μ (μ.xstore t l v h) := by
  refine .of_update (fun u k _ hk => ⟨(untouched_eq_some.1 hk).1, fun _ _ => rfl⟩)
    fun h' u k hu hh hk => ?_
  cases hh
  obtain ⟨hk, hfree⟩ := untouched_eq_some.1 hk
  refine ⟨fun l' hl' hmem => ?_, ha u t k h hu hk ht⟩
  by_cases hl : l' = l
  · subst hl
    exact (hfree hu).2 hmem
  · simp only [lookup_putBack, if_neg hl] at hl'
    exact ha t u h k hu.symm ht hk l' hl' hmem

theorem xend_step (ha : μ.Apart) (ht : μ.htm t = some h) : Step t μ (μ.xend t h) := by
  refine .of_update (fun u k hu hk => ⟨hk, fun l hl => ?_⟩) fun h' u k _ hh _ => by cases hh
  cases hw : h.writes.lookup l with
  | none => simp [value, hw]
  | some w => exact absurd hl (ha t u h k hu.symm ht hk l (by simp [hw]))

end Machine

end Htm
