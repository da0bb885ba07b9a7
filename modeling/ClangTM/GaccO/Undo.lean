import ClangTM.Bytes.Block
import ClangTM.GaccO.Basic

/-!
# The undo log of GaccO

`do_write` copies the old bytes of an address to the undo log when the transaction writes to this
address for the first time, as many of them as that write has, and `rollback_writes` copies them
back, the newest entry first. The widths of later writes to the address are not looked at. Here
memory is made of bytes, and accesses may overlap; of a value the bytes are kept that `memcpy`
takes from it. `real_tm_abort`, `bail_deadlock` and a `real_tm_end` that fails all call
`rollback_writes`, and do not store to memory besides.
-/

namespace GaccO

open Bytes

abbrev Byte := BitVec 8

/-- Memory, and the undo log and the writes of the transaction, newest first. -/
structure Writes where
  mem : Addr → Byte
  undo : List (Addr × List Byte) := []
  writes : List (Addr × List Byte) := []

def doWrite (s : Writes) (w : Addr × List Byte) : Writes where
  mem := store s.mem w.1 w.2
  undo :=
    if s.writes.any fun v => v.1 == w.1 then s.undo
    else (w.1, load s.mem w.1 w.2.length) :: s.undo
  writes := w :: s.writes

def restore (undo : List (Addr × List Byte)) (m : Addr → Byte) : Addr → Byte :=
  undo.foldl (fun m e => store m e.1 e.2) m

def rollbackWrites (s : Writes) : Writes := { mem := restore s.undo s.mem }

section Restore

variable {undo : List (Addr × List Byte)} {m m' : Addr → Byte}

/-- What is restored does not depend on the bytes that the log has. -/
theorem restore_congr (h : ∀ p, m p = m' p ∨ ∃ e ∈ undo, p ∈ range e.1 e.2.length) :
    restore undo m = restore undo m' := by
  induction undo generalizing m m' with
  | nil => exact funext fun p => (h p).resolve_right (by simp)
  | cons e undo ih =>
      refine ih fun p => ?_
      by_cases hp : p ∈ range e.1 e.2.length
      · exact .inl (store_congr (.inl hp))
      · refine (h p).imp (fun heq => store_congr (.inr heq)) ?_
        rintro ⟨e', he', hp'⟩
        rcases List.mem_cons.1 he' with rfl | he'
        · exact absurd hp' hp
        · exact ⟨e', he', hp'⟩

theorem restore_store {a : Addr} {bs : List Byte}
    (h : ∃ e ∈ undo, e.1 = a ∧ e.2.length = bs.length) :
    restore undo (store m a bs) = restore undo m := by
  obtain ⟨e, he, rfl, hlen⟩ := h
  refine restore_congr fun p => ?_
  by_cases hp : p ∈ range e.1 bs.length
  · exact .inr ⟨e, he, hlen ▸ hp⟩
  · exact .inl (store_of_notMem hp)

end Restore

def OneWidth (ws : List (Addr × List Byte)) : Prop :=
  ∀ w ∈ ws, ∀ w' ∈ ws, w.1 = w'.1 → w.2.length = w'.2.length

instance (ws : List (Addr × List Byte)) : Decidable (OneWidth ws) :=
  inferInstanceAs (Decidable (∀ _ ∈ _, _))

/-- The log leads back to the memory `m`, and has all the bytes that have been written. -/
structure Logged (m : Addr → Byte) (s : Writes) : Prop where
  back : restore s.undo s.mem = m
  all : ∀ w ∈ s.writes, ∃ e ∈ s.undo, e.1 = w.1 ∧ e.2.length = w.2.length

theorem Logged.doWrite {m : Addr → Byte} {s : Writes} (h : Logged m s) {w : Addr × List Byte}
    (hw : ∀ v ∈ s.writes, v.1 = w.1 → v.2.length = w.2.length) : Logged m (doWrite s w) := by
  unfold GaccO.doWrite
  split
  · next hany =>
      obtain ⟨v, hv, heq⟩ := List.any_eq_true.1 hany
      have haddr : v.1 = w.1 := by simpa using heq
      have hlogged : ∃ e ∈ s.undo, e.1 = w.1 ∧ e.2.length = w.2.length := by
        rw [← haddr, ← hw v hv haddr]
        exact h.all v hv
      exact ⟨(restore_store hlogged).trans h.back, List.forall_mem_cons.2 ⟨hlogged, h.all⟩⟩
  · have hback : store (store s.mem w.1 w.2) w.1 (load s.mem w.1 w.2.length) = s.mem := by
      refine Eq.trans (funext fun p => store_congr ?_) (store_load_self (a := w.1))
      rw [length_load]
      by_cases hp : p ∈ range w.1 w.2.length
      · exact .inl hp
      · exact .inr (store_of_notMem hp)
    refine ⟨(congrArg (restore s.undo) hback).trans h.back,
      List.forall_mem_cons.2 ⟨⟨_, List.mem_cons_self, rfl, length_load⟩, fun v hv => ?_⟩⟩
    obtain ⟨e, he, hsame⟩ := h.all v hv
    exact ⟨e, List.mem_cons_of_mem _ he, hsame⟩

theorem Logged.foldl {m : Addr → Byte} {s : Writes} (h : Logged m s) (ws : List (Addr × List Byte))
    (hw : OneWidth (ws.reverse ++ s.writes)) : Logged m (ws.foldl GaccO.doWrite s) := by
  induction ws generalizing s with
  | nil => exact h
  | cons w ws ih =>
      rw [List.reverse_cons, List.append_assoc] at hw
      refine ih (h.doWrite fun v hv => hw v ?_ w ?_) hw
      · exact List.mem_append_right _ (List.mem_cons_of_mem _ hv)
      · exact List.mem_append_right _ List.mem_cons_self

end GaccO
