import ClangTM.Rust.TinySTM.Basic

/-!
# The sets of a transaction

Sorting and deduplicating the positions of the locks keeps their members and leaves each of
them once. Over cells that do not overlap, looking an address up in the write set is looking
up the cell.
-/

namespace Rust.TinySTM

open Serial

@[simp] theorem mem_sortDedup {idx : LockIdx} {idxs : List LockIdx} :
    idx ∈ sortDedup idxs ↔ idx ∈ idxs := by
  rw [sortDedup, List.mem_dedup, List.mem_insertionSort]

theorem nodup_sortDedup (idxs : List LockIdx) : (sortDedup idxs).Nodup :=
  List.nodup_dedup _

@[simp] theorem sortDedup_eq_nil {idxs : List LockIdx} : sortDedup idxs = [] ↔ idxs = [] := by
  simp only [List.eq_nil_iff_forall_not_mem, mem_sortDedup]

section Cells

variable {ws : List (Addr × Word)} {k : Addr} {v : Word}

theorem wsGet_eq (ws : List (Addr × Word)) (k : Addr) :
    wsGet ws k = (ws.lookup k).map fun v => (k, v) := by
  induction ws with
  | nil => rfl
  | cons e ws ih =>
      rw [wsGet, List.find?_cons, lookup_cons_eq]
      by_cases he : e.1 = k
      · subst he
        simp [Layout.addr]
      · have hne : ¬k = e.1 := fun h => he h.symm
        simp only [Layout.addr, he, decide_false, hne, if_false]
        exact ih

theorem wsGet_isSome : (wsGet ws k).isSome = (ws.lookup k).isSome := by
  rw [wsGet_eq, Option.isSome_map]

theorem wsWrite_eq (h : (ws.lookup k).isSome) : wsWrite k v ws = overwrite k v ws := by
  induction ws with
  | nil => cases h
  | cons e ws ih =>
      rw [lookup_cons_eq] at h
      rw [wsWrite, overwrite]
      by_cases he : e.1 = k
      · simp [Layout.addr, he]
      · have hne : ¬k = e.1 := fun h => he h.symm
        simp only [hne, if_false] at h
        simp [Layout.addr, he, ih h]

theorem lookup_wsWrite (h : (ws.lookup k).isSome) (b : Addr) :
    (wsWrite k v ws).lookup b = if b = k then some v else ws.lookup b := by
  rw [wsWrite_eq h, ← lookup_putBack k b v ws, putBack, if_pos h]

theorem nodup_wsWrite (h : (ws.lookup k).isSome) (hnodup : (ws.map Prod.fst).Nodup) :
    ((wsWrite k v ws).map Prod.fst).Nodup := by
  rw [wsWrite_eq h, map_fst_overwrite]
  exact hnodup

end Cells

end Rust.TinySTM
