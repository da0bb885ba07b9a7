import ClangTM.TL2.Guarded
import ClangTM.TscTM.Basic

/-!
# TSC-TM as an implementation of the certifying protocol

A transaction takes its place in the serial order when it reads the timestamp, at which point
it holds the guards of all it writes, and is committed at the end of its validation. That the
timestamps say nothing is no obstacle: the protocol only asks that the version of a guard grows
with every commit that releases it, and the version a commit stores is larger than the one it
found, whatever the timestamp (`Own.acq`).
-/

namespace TscTM

open Serial Transition Certify TL2

/-- The program counter of TL2 at the same place. -/
def Pc.core : Pc → TL2.Pc
  | .out | .abortRelease _ => .out
  | .body => .body
  | .readGuard a => .readGuard a
  | .readValue a version => .readValue a version
  | .acquire e rest held => .acquire e rest held
  | .acquireCas guard e rest held => .acquireCas guard e rest held
  | .giveBack held => .giveBack held
  | .timestamp held => .tick held
  | .validate rest held => .validate rest held
  | .writeBack rest held => .writeBack rest held
  | .release rest => .release rest

/-- What a thread knows besides: its timestamp is one, and the versions of the guards it holds
are the ones it found. -/
structure Own (ver : GuardIdx → ℕ) (x : Tx) : Prop where
  stamp : x.commitVersion.toNat < 2 ^ 62
  acq : ∀ ℓ ∈ held x.pc.core, ver ℓ = (x.acqVersion ℓ).toNat

def backend (T : Type) : Backend T (Shared T) Tx where
  table σ := { gGuards := σ.gGuards, mem := σ.mem, book := σ.book }
  core x :=
    { pc := x.pc.core, readSet := x.readSet, writeSet := x.writeSet
      bloomFilter := x.bloomFilter, hist := x.hist }
  Shape _ := True
  Own := Own
  stable h hver := ⟨h.stamp, fun ℓ hℓ => (hver ℓ hℓ).trans (h.acq ℓ hℓ)⟩

end TscTM
