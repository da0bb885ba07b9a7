import ClangTM.TinySTM.View

/-!
# Proofs about a system of threads

The invariant of a design has the same shape for all designs: the protocol state that
a state stands for satisfies the invariant of the protocol, every lock word is well
formed, every thread knows what its program counter says, and memory is the committed
memory except at words that some thread is known to have changed or to change yet. A
design supplies what a thread knows, with a proof that the moves of the other threads
do not affect it. What is left to do is one step of one thread (`SystemNext`).
-/

namespace TinySTM

open Serial VersionLock

/-- The protocol state that the designs are mapped to. -/
abbrev Proto := VersionLock.State WordAddr Word LockIdx TxId

/-- What the loads of a step tell about the protocol state, in a design that writes
back: memory is current where no committed transaction holds the lock. -/
structure Backed (m₀ : WordAddr → Word) (σ : Shared) (v : Proto) : Prop where
  clock : v.clock = σ.gClock
  owner : ∀ ℓ, v.owner ℓ = lockOwner (σ.locks ℓ)
  ver : ∀ ℓ, v.ver ℓ = versionOf (σ.locks ℓ)
  wordOk : ∀ ℓ, WordOk (σ.locks ℓ)
  mem : ∀ a, (∀ u, v.owner (lockOf a) = some u → (v.tx u).done = false) →
    σ.mem a = v.mem m₀ v.clock a

/-- Every recorded read is still to be checked, or known to be valid up to `e`. -/
def Checked (v : Proto) (t : TxId) (reads : List (Entry WordAddr Word))
    (rest : List ReadLogEntry) (e : ℕ) : Prop :=
  ∀ r ∈ reads,
    (∃ r' ∈ rest, r'.addr = r.addr ∧ r'.observedVersion = r.ver) ∨ Safe lockOf v t r e

namespace Checked

variable {m₀ : WordAddr → Word} {v v' : Proto} {t u : TxId} {σ : Shared}
  {reads : List (Entry WordAddr Word)} {rest : List ReadLogEntry} {e : ℕ}

theorem moves (h : Checked v t reads rest e) (hm : Moves lockOf m₀ v u v') (hne : t ≠ u)
    (hle : ∀ r ∈ reads, r.ver ≤ v.clock) (he : e ≤ v.clock) : Checked v' t reads rest e := by
  intro r hr
  exact (h r hr).imp_right fun hsafe => hm.safe hsafe (fun h => absurd h hne) (hle r hr) he

theorem tail {r : ReadLogEntry} (h : Checked v t reads (r :: rest) e)
    (hinv : VersionLock.Inv lockOf m₀ v) (hd : (v.tx t).done = false) (hb : Backed m₀ σ v)
    (hr : r.stale t (σ.locks (lockOf r.addr)) = false) : Checked v t reads rest e := by
  obtain ⟨hown, hver⟩ := ReadLogEntry.not_stale hr
  intro r₁ hr₁
  rcases h r₁ hr₁ with ⟨r', hr', haddr, hv⟩ | hsafe
  · rcases List.mem_cons.1 hr' with rfl | hr'
    · refine .inr (hinv.safe_of_check hd (fun u hu => ?_) ?_ e)
      · rw [← haddr, hb.owner] at hu
        exact hown u hu
      · rw [← haddr, hb.ver, ← hv]
        exact hver
    · exact .inl ⟨r', hr', haddr, hv⟩
  · exact .inr hsafe

theorem safe (h : Checked v t reads [] e) {r : Entry WordAddr Word} (hr : r ∈ reads) :
    Safe lockOf v t r e :=
  (h r hr).resolve_left (by simp)

end Checked

section System

variable {X : Type} (hist : X → VersionLock.Tx WordAddr Word)
  (Knows : (WordAddr → Word) → Proto → TxId → X → Prop) (Pending : X → WordAddr → Word → Prop)

/-- The invariant of a system, given the history of a transaction, what a thread knows
of the protocol state, and the words at which a thread accounts for a content of
memory that is not the committed one. -/
structure SystemInv (m₀ : WordAddr → Word) (s : State X) : Prop where
  proto : VersionLock.Inv lockOf m₀ (s.view hist)
  word : ∀ ℓ, WordOk (s.shared.locks ℓ)
  tx : ∀ t, Knows m₀ (s.view hist) t (s.tx t)
  mem : ∀ a, s.shared.mem a = memAt m₀ s.shared.log s.shared.gClock a ∨
    ∃ t, Pending (s.tx t) a (s.shared.mem a)

structure SystemNext (m₀ : WordAddr → Word) (s : State X) (t : TxId) (σ : Shared) (x : X) :
    Prop where
  moves : Moves lockOf m₀ (s.view hist) t ((s.put t σ x).view hist)
  word : ∀ ℓ, WordOk (σ.locks ℓ)
  tx : Knows m₀ ((s.put t σ x).view hist) t x
  mem : ∀ a, σ.mem a = memAt m₀ σ.log σ.gClock a ∨ Pending x a (σ.mem a) ∨
    (¬Pending (s.tx t) a (s.shared.mem a) ∧ σ.mem a = s.shared.mem a ∧
      memAt m₀ σ.log σ.gClock a = memAt m₀ s.shared.log s.shared.gClock a)

/-- The thread `t` goes on as `x`, by a move of the protocol that changes nothing but
its history, or by none. -/
structure SystemGoes (m₀ : WordAddr → Word) (v : Proto) (t : TxId) (x : X) : Prop where
  moves : Moves lockOf m₀ v t (v.setTx t (hist x))
  tx : Knows m₀ (v.setTx t (hist x)) t x

variable {hist Knows Pending} {m₀ : WordAddr → Word} {s : State X} {t : TxId} {σ : Shared}
  {x : X}

theorem SystemGoes.of_knows {v : Proto} (hx : v.tx t = hist x) (h : Knows m₀ v t x) :
    SystemGoes hist Knows m₀ v t x := by
  have hself : v.setTx t (hist x) = v := by
    rw [← hx]
    exact State.setTx_self v t
  exact ⟨.inl hself, hself.symm ▸ h⟩

theorem SystemNext.inv (h : SystemNext hist Knows Pending m₀ s t σ x)
    (stable : ∀ {v v' : Proto} {t u : TxId} {x : X}, Knows m₀ v t x →
      VersionLock.Inv lockOf m₀ v → Moves lockOf m₀ v u v' → t ≠ u → Knows m₀ v' t x)
    (hinv : SystemInv hist Knows Pending m₀ s) :
    SystemInv hist Knows Pending m₀ (s.put t σ x) where
  proto := h.moves.inv hinv.proto
  word := h.word
  tx u := by
    by_cases hu : u = t
    · subst hu
      rw [State.put_tx_self]
      exact h.tx
    · rw [State.put_tx_of_ne hu]
      exact stable (hinv.tx u) hinv.proto h.moves hu
  mem a := by
    rcases h.mem a with hmem | hp | ⟨hnp, hmem, hlog⟩
    · exact .inl hmem
    · exact .inr ⟨t, by rwa [State.put_tx_self]⟩
    · rcases hinv.mem a with hold | ⟨u, hu⟩
      · exact .inl (hmem.trans (hold.trans hlog.symm))
      · have hne : u ≠ t := by
          rintro rfl
          exact hnp hu
        exact .inr ⟨u, by rwa [State.put_tx_of_ne hne, State.put_shared, hmem]⟩

section

variable (h : SystemInv hist Knows Pending m₀ s)
include h

theorem SystemInv.next_goes (hσ : s.shared.Same σ) (hmem : σ.mem = s.shared.mem)
    (hnp : ∀ a m, ¬Pending (s.tx t) a m) (hx : SystemGoes hist Knows m₀ (s.view hist) t x) :
    SystemNext hist Knows Pending m₀ s t σ x := by
  have hview : (s.put t σ x).view hist = (s.view hist).setTx t (hist x) := State.view_put hσ
  exact
    { moves := hview.symm ▸ hx.moves
      word := fun ℓ => by rw [hσ.locks]; exact h.word ℓ
      tx := hview.symm ▸ hx.tx
      mem := fun a => .inr (.inr ⟨hnp a _, by rw [hmem], by rw [hσ.log, hσ.clock]⟩) }

theorem SystemInv.next_same (hσ : s.shared.Same σ) (hmem : σ.mem = s.shared.mem)
    (hnp : ∀ a m, ¬Pending (s.tx t) a m) (hx : hist x = hist (s.tx t))
    (hknows : Knows m₀ (s.view hist) t x) : SystemNext hist Knows Pending m₀ s t σ x :=
  h.next_goes hσ hmem hnp (.of_knows hx.symm hknows)

theorem SystemInv.serialRun :
    SerialRun m₀ (schedule s.shared.log s.shared.ro s.shared.gClock)
      (memAt m₀ s.shared.log s.shared.gClock) :=
  h.proto.serialRun s.shared.gClock

end

end System

end TinySTM
