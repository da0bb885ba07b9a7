import ClangTM.TL2.Guarded

/-!
# TL2 as an implementation of the certifying protocol

The owner of a guard is recorded in the book, its version is the one in the guard. Besides
what the protocol asks for, a thread knows that its commit version is the one it took, and
which guards its commit has locked and given back (`Account`).

The invariant holds in runs in which the clock stays below `2 ^ 63`, so that every commit
version fits into a guard.
-/

namespace TL2

open Serial Transition Certify

structure Shape {T : Type} (σ : Shared T) : Prop where
  clock : σ.gClock.toNat = σ.book.clock
  bound : σ.gClock.toNat < 2 ^ 63
  stamp : ∀ ℓ, σ.book.ver ℓ = σ.book.stamp ℓ

/-- The guards that a commit has locked and not given back are those of the list, at the
versions it found, and it has stored nothing. -/
def Locks (ver : GuardIdx → ℕ) (x : Tx) (hl : List GuardIdx) : Prop :=
  ∃ l, x.taken = x.given ++ l ∧ l.map Prod.fst = hl ∧ (∀ p ∈ l, ver p.1 = p.2.toNat) ∧
    x.stores = 0

/-- What a commit has locked and unlocked so far. -/
structure Account (ver : GuardIdx → ℕ) (x : Tx) : Prop where
  locked : undecided (phase x.pc) = true → Locks ver x (held x.pc)
  inside : phase x.pc ≠ .idle → x.committed = none
  failed : x.committed = some false → x.given = x.taken ∧ x.stores = 0

structure Own (ver : GuardIdx → ℕ) (x : Tx) : Prop where
  version : ∀ c, x.hist.cv = some c → x.commitVersion.toNat = c ∧ c < 2 ^ 63
  account : Account ver x

theorem Own.stable {ver ver' : GuardIdx → ℕ} {x : Tx} (h : Own ver x)
    (hver : ∀ ℓ ∈ held x.pc, ver' ℓ = ver ℓ) : Own ver' x := by
  refine ⟨h.version, fun hd => ?_, h.account.inside, h.account.failed⟩
  obtain ⟨l, htaken, hl, hlver, hstores⟩ := h.account.locked hd
  refine ⟨l, htaken, hl, fun p hp => ?_, hstores⟩
  rw [hver p.1 (hl ▸ List.mem_map_of_mem hp), hlver p hp]

def backend (T : Type) : Backend T (Shared T) Tx where
  table σ := { gGuards := σ.gGuards, mem := σ.mem, book := σ.book }
  core x :=
    { pc := x.pc, readSet := x.readSet, writeSet := x.writeSet, bloomFilter := x.bloomFilter
      hist := x.hist }
  Shape := Shape
  Own := Own
  stable h hver := h.stable hver

end TL2
