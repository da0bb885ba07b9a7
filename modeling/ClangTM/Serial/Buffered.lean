import ClangTM.Serial.RedoLog

/-!
# Transactions that buffer their writes

A transaction that keeps its writes in a redo log and the values it has read from memory in a
read set. `Buffered` relates the trace of such a transaction to the two; if the read set
agrees with a memory, the trace is legal there, and the memory it leaves is that memory with
the redo log written to it. `Replayed` is about the list of all its writes, in their order: it
leaves the same memory, and its words are those of the redo log.
-/

namespace Serial

variable {A V : Type*} [DecidableEq A]

/-- The trace of a transaction, its redo log and its read set. -/
structure Buffered (ops : Trace A V) (ws rs : List (A × V)) : Prop where
  covered : ∀ p ∈ external ops, p ∈ rs
  self : SelfConsistent ops
  writes : ∀ a, lastWrite ops a = ws.lookup a
  nodup : (ws.map Prod.fst).Nodup

namespace Buffered

variable {ops : Trace A V} {ws rs : List (A × V)} {a : A} {v : V} {m : A → V}

theorem nil : Buffered ([] : Trace A V) [] [] :=
  ⟨fun _ hp => (by cases hp), trivial, fun _ => rfl, .nil⟩

section

variable (h : Buffered ops ws rs)
include h

/-- A read that the redo log serves. -/
theorem readOwn (hv : ws.lookup a = some v) : Buffered (.read a v :: ops) ws rs := by
  have hlast : lastWrite ops a = some v := (h.writes a).trans hv
  refine ⟨?_, ⟨fun w hw => ?_, h.self⟩, h.writes, h.nodup⟩
  · rw [external_read_of_some hlast]
    exact h.covered
  · exact Option.some.inj (hw.symm.trans hlast)

theorem mono {rs' : List (A × V)} (hrs : rs ⊆ rs') : Buffered ops ws rs' :=
  ⟨fun p hp => hrs (h.covered p hp), h.self, h.writes, h.nodup⟩

/-- A read from memory of a value in the read set. -/
theorem reread (hv : ws.lookup a = none) (hmem : (a, v) ∈ rs) :
    Buffered (.read a v :: ops) ws rs := by
  have hlast : lastWrite ops a = none := (h.writes a).trans hv
  refine ⟨?_, ⟨fun w hw => ?_, h.self⟩, h.writes, h.nodup⟩
  · rw [external_read_of_none hlast]
    exact List.forall_mem_cons.2 ⟨hmem, h.covered⟩
  · rw [hlast] at hw
    cases hw

/-- A read from memory that is noted at the end, or in front. -/
theorem read (hv : ws.lookup a = none) : Buffered (.read a v :: ops) ws (rs ++ [(a, v)]) :=
  (h.mono (List.subset_append_left _ _)).reread hv
    (List.mem_append_right _ List.mem_cons_self)

theorem readFront (hv : ws.lookup a = none) : Buffered (.read a v :: ops) ws ((a, v) :: rs) :=
  (h.mono (List.subset_cons_self _ _)).reread hv List.mem_cons_self

theorem write (a : A) (v : V) : Buffered (.write a v :: ops) (putBack a v ws) rs := by
  refine ⟨h.covered, h.self, fun b => ?_, nodup_putBack h.nodup⟩
  rw [lastWrite_write, lookup_putBack, h.writes]

theorem writeFront (a : A) (v : V) : Buffered (.write a v :: ops) (putFront a v ws) rs := by
  refine ⟨h.covered, h.self, fun b => ?_, nodup_putFront h.nodup⟩
  rw [lastWrite_write, lookup_putFront, h.writes]

/-- Legality from agreement of the read set. -/
theorem legal (hm : ∀ r ∈ rs, m r.1 = r.2) : Legal m ops :=
  (legal_iff m ops).2 ⟨h.self, fun p hp => hm p (h.covered p hp)⟩

theorem final_eq (m : A → V) (b : A) : final m ops b = (ws.lookup b).getD (m b) := by
  rw [final_eq_getD, h.writes]

end

end Buffered

/-- All writes of a transaction, and its redo log. -/
structure Replayed (ops : Trace A V) (ws backs : List (A × V)) : Prop where
  writes : ∀ m, writeAll m backs = final m ops
  logged : ∀ w ∈ backs, w.1 ∈ ws.map Prod.fst

namespace Replayed

variable {ops : Trace A V} {ws backs : List (A × V)}

theorem nil : Replayed ([] : Trace A V) [] [] := ⟨fun _ => rfl, fun _ hw => (by cases hw)⟩

theorem read (h : Replayed ops ws backs) (a : A) (v : V) : Replayed (.read a v :: ops) ws backs :=
  ⟨h.writes, h.logged⟩

theorem write (h : Replayed ops ws backs) (a : A) (v : V) :
    Replayed (.write a v :: ops) (putBack a v ws) (backs ++ [(a, v)]) := by
  refine ⟨fun m => ?_, fun w hw => ?_⟩
  · rw [writeAll, List.foldl_append]
    exact congrArg (fun m => Function.update m a v) (h.writes m)
  · rw [mem_map_fst_putBack]
    rcases List.mem_append.1 hw with hw | hw
    · exact .inr (h.logged w hw)
    · exact .inl (congrArg Prod.fst (List.mem_singleton.1 hw))

end Replayed

end Serial
