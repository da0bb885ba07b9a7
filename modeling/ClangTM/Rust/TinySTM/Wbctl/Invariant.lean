import ClangTM.Certify.Phase
import ClangTM.Rust.TinySTM.Sets

/-!
# WBCTL as an implementation of the certifying protocol

Over cells that do not overlap, a WBCTL transaction is one with a read set and a write set
in the sense of `Certify.Phased`: it takes its locks in `lock_write_addrs`, its place in the
serial order in `gc_tick`, and is committed when the validation has come to an end. A
transaction whose flag is set is one that gives up.
-/

namespace Rust.TinySTM.Wbctl

open Serial Transition Certify

/-- The shared state over cells that do not overlap. -/
abbrev Cells (T : Type) := Shared Addr (Addr → Word) T

abbrev Proto (T : Type) := Certify.State Addr Word LockIdx T

def reads (rs : List (Addr × Word)) : List (Addr × ℕ) := rs.map fun r => (r.1, r.2.toNat)

theorem mem_reads {rs : List (Addr × Word)} {r : Addr × Word} (h : r ∈ rs) :
    (r.1, r.2.toNat) ∈ reads rs :=
  List.mem_map_of_mem h

theorem reads_append (rs : List (Addr × Word)) (r : Addr × Word) :
    reads (rs ++ [r]) = reads rs ++ [(r.1, r.2.toNat)] := by
  simp [reads]

def phase (x : Tx Addr) : Phase Addr Word :=
  match x.pc with
  | .out | .beginClock => .idle
  | .lock .. | .lockCas .. | .tick _ => .active
  | .validate rest _ _ => .checking (reads rest)
  | .writeBack rest _ => .writing rest
  | .unlock _ result | .unlockStore _ _ _ result =>
      if result = some true then .writing [] else .failing
  | _ => if x.aborted then .failing else .active

def held : Pc Addr → List LockIdx
  | .lock _ _ held | .lockCas _ _ _ held | .tick held | .validate _ held _
  | .writeBack _ held => held
  | .unlock rest _ => rest
  | .unlockStore _ idx rest _ => idx :: rest
  | _ => []

def loc (x : Tx Addr) : Local Addr Word LockIdx :=
  ⟨phase x, held x.pc, reads x.readSet, x.writeSet, x.hist⟩

variable {T : Type}

structure Shape (σ : Cells T) : Prop where
  locked : ∀ ℓ, isLocked (σ.locks ℓ) = true ↔ σ.book.owner ℓ ≠ none
  ver : ∀ ℓ, (version (σ.locks ℓ)).toNat = σ.book.ver ℓ

def Covered (x : Tx Addr) (held rest : List LockIdx) : Prop :=
  ∀ w ∈ x.writeSet, lockOf w.1 ∈ held ∨ lockOf w.1 ∈ rest

def Here (m₀ : Addr → Word) (v : Proto T) (x : Tx Addr) : Prop :=
  match x.pc with
  | .readLocked k _ | .readVersion k | .extendClock k | .extendCheck k _ _ =>
      x.writeSet.lookup k = none
  | .readValue k ver => x.writeSet.lookup k = none ∧ ver.toNat ≤ v.ver (lockOf k)
  | .readAgain k ver value _ =>
      x.writeSet.lookup k = none ∧ Seen lockOf m₀ v k ver.toNat value
  | .writeLocked k _ _ | .writeVersion k _ =>
      x.writeSet.lookup k = none ∧ x.aborted = false
  | .lock idx rest held => Covered x held (idx :: rest)
  | .lockCas cur idx rest held => Covered x held (idx :: rest) ∧ isLocked cur = false
  | .tick held => Covered x held []
  | .unlockStore ver idx _ _ => v.ver idx = ver.toNat
  | .panicked | .tryLock .. | .tryLockCas .. | .retryLocked .. | .retryVersion ..
  | .oldValue .. | .oldVersion .. | .storeThrough .. | .undo .. | .unlockTo .. => False
  | _ => True

structure Extra (m₀ : Addr → Word) (v : Proto T) (x : Tx Addr) : Prop where
  lockedAddrs : x.lockedAddrs = []
  here : Here m₀ v x

variable [DecidableEq T] {m₀ : Addr → Word} {v v' : Proto T} {t u : T} {x : Tx Addr}

theorem Extra.stable (h : Extra m₀ v x) (hok : Ok lockOf m₀ v t (loc x))
    (hinv : Certify.Inv lockOf m₀ v) (hm : Moves lockOf m₀ u v v') (hne : t ≠ u) :
    Extra m₀ v' x := by
  refine ⟨h.lockedAddrs, ?_⟩
  have hhere := h.here
  unfold Here at hhere ⊢
  cases hpc : x.pc with
  | readValue k ver =>
      rw [hpc] at hhere
      exact ⟨hhere.1, hhere.2.trans (hm.ver_le _)⟩
  | readAgain k ver value current =>
      rw [hpc] at hhere
      exact ⟨hhere.1, hm.seen hinv hhere.2⟩
  | unlockStore ver idx rest result =>
      rw [hpc] at hhere
      have hown : v.owner idx = some t := (hok.held idx).2 (by simp [loc, hpc, held])
      exact (hm.ver_eq hne hown).trans hhere
  | _ =>
      rw [hpc] at hhere
      exact hhere

def phased (T : Type) [DecidableEq T] : Phased Addr Word LockIdx T (Cells T) (Tx Addr) where
  lock := lockOf
  book := Shared.book
  mem := Shared.mem
  loc := loc
  Shape := Shape
  Extra m₀ v _ x := Extra m₀ v x
  stable := Extra.stable

end Rust.TinySTM.Wbctl
