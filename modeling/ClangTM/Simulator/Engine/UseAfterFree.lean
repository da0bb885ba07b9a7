import ClangTM.Simulator.Engine.Basic

/-!
# Use after free

The verifier keeps the allocations by base address, and `check_read` and `check_write` look up the
address of the access itself. An access to another byte of a freed allocation goes unnoticed, and
the base of a freed allocation stays marked when a later allocation, made at a lower address,
covers it. `ByBase` excludes both.
-/

namespace Simulator.Verifier

variable (v : Verifier)

/-- The address is in an allocation, live or freed, that the verifier knows. -/
def Inside (freed : Bool) (p : Word) : Prop :=
  ∃ base size, v.shadow base = some ⟨size, freed⟩ ∧ base.toNat ≤ p.toNat ∧
    p.toNat < base.toNat + size.toNat

/-- The address is in freed memory that has not been allocated again. -/
def Stale (p : Word) : Prop := v.Inside true p ∧ ¬v.Inside false p

/-- An address of freed memory is the base of an allocation, which has a byte, and the base of a
freed allocation is in no live one. -/
structure ByBase (p : Word) : Prop where
  base : v.Inside true p → ∃ size freed, v.shadow p = some ⟨size, freed⟩ ∧ size ≠ 0
  clear : ∀ size, v.shadow p = some ⟨size, true⟩ → ¬v.Inside false p

variable {v}

/-- In a transaction, after 32 bytes have been allocated and freed. -/
def afterFree : Verifier := ((({} : Verifier).alloc 0x2000 32).free 0x2000).txBegin 0

theorem not_inside_afterFree (p : Word) : ¬afterFree.Inside false p := by
  have hshadow : afterFree.shadow = Function.update (fun _ => none) 0x2000 (some ⟨32, true⟩) := by
    simp [afterFree, alloc, free, txBegin]
  rintro ⟨base, size, hp, -⟩
  rw [hshadow, Function.update_apply] at hp
  split at hp <;> simp at hp

end Simulator.Verifier
