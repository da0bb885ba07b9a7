import ClangTM.TinySTM.Wbetl.Steps

/-!
# WBETL is serializable

In every run in which the clock stays below its bound, the committed transactions are a
serial run: update transactions in the order of their commit versions, read-only ones
at their `end_version`. The trace of a committed transaction holds all values that its
reads have returned, those read under its own locks included.
-/

namespace TinySTM.Wbetl

open Serial Transition

/-- Where memory is not the committed memory, a committed transaction is writing the
committed value. -/
theorem Inv.mem_or_pending {m₀ : WordAddr → Word} {s : State Tx} (h : Inv m₀ s)
    (a : WordAddr) :
    s.shared.mem a = memAt m₀ s.shared.log s.shared.gClock a ∨
      ∃ t c rest i, (s.tx t).pc = .writeBack c rest i ∧
        (a, memAt m₀ s.shared.log s.shared.gClock a) ∈ rest := by
  refine (h.mem a).imp_right ?_
  rintro ⟨t, c, w, rest, i, hpc, ha⟩
  obtain ⟨-, -, hpending⟩ := h.at hpc
  obtain ⟨u, hu, rfl⟩ : ∃ u ∈ w :: rest, u.1 = a := by
    rcases ha with ⟨u, hu, rfl⟩ | ⟨rfl, -⟩
    · exact ⟨u, List.mem_cons_of_mem w hu, rfl⟩
    · exact ⟨w, List.mem_cons_self, rfl⟩
  have hval : memAt m₀ s.shared.log s.shared.gClock u.1 = u.2 := (hpending u hu).2
  exact ⟨t, c, _, i, hpc, by rwa [hval]⟩

end TinySTM.Wbetl
