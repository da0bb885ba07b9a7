import Mathlib.Data.Fintype.Basic
import ClangTM.LeftRight.Basic

/-!
# When LeftRight is serializable

Memory only changes under the commit lock, so that the values a commit has compared are still
there when it writes back. What is not compared is a read of an address that was read before,
and any read of a transaction without writes. In the runs in which the former find the value
that was noted, and the latter have all their values in memory at the end, the committed
transactions are a serial run in the order of their commits.
-/

namespace LeftRight

open Serial Transition CommitLock

variable {A V T : Type} [DecidableEq A]

/-- A read of an address that was read before finds the value it found then, and a transaction
without writes commits while the lock is free and memory has all that it read. -/
def Steady (s : Threads (Shared A V T) (Tx A V) T) (l : T × Call A V)
    (_ : Threads (Shared A V T) (Tx A V) T) : Prop :=
  match (s.tx l.1).pc, l.2 with
  | .readValue a, .tau => ∀ r ∈ (s.tx l.1).readSet, r.addr = a → s.shared.mem a = r.capturedValue
  | .body, .commit _ _ =>
      (s.tx l.1).writeSet = [] → s.shared.gCommitLock = 0 ∧
        ∀ r ∈ (s.tx l.1).readSet, s.shared.mem r.addr = r.capturedValue
  | _, _ => True

instance [DecidableEq V] (s : Threads (Shared A V T) (Tx A V) T) (l : T × Call A V)
    (s' : Threads (Shared A V T) (Tx A V) T) : Decidable (Steady s l s') := by
  unfold Steady
  split <;> infer_instance

def Pc.holding : Pc A V → Bool
  | .compare .. | .tick _ | .writeBack _ | .release _ => true
  | _ => false

/-- No read depends on anything but the lock. -/
def core (σ : Shared A V T) : Core Unit Unit Unit T where
  mem _ := ()
  ver _ := 0
  cap _ := 0
  dirty := []
  holder := σ.holder
  commits := 0

def Here (σ : Shared A V T) (x : Tx A V) : Prop :=
  match x.pc with
  | .readValue a | .readClock a _ => x.writeSet.lookup a = none
  | .lock rs ws => rs.Perm x.readSet ∧ ws.Perm x.writeSet
  | .compare rest ws =>
      ws.Perm x.writeSet ∧ σ.pending = [] ∧
        ∀ r ∈ x.readSet, r ∈ rest ∨ σ.mem r.addr = r.capturedValue
  | .tick ws =>
      ws.Perm x.writeSet ∧ σ.pending = [] ∧ ∀ r ∈ x.readSet, σ.mem r.addr = r.capturedValue
  | .writeBack rest => σ.pending = rest
  | .release _ => σ.pending = []
  | _ => True

structure Knows (σ : Shared A V T) (x : Tx A V) : Prop where
  buffered : Buffered x.ops x.writeSet (x.readSet.map fun r => (r.addr, r.capturedValue))
  here : Here σ x

structure Shape (m₀ : A → V) (σ : Shared A V T) : Prop where
  runs : SerialRun m₀ σ.log (writeAll σ.mem σ.pending)
  free : σ.gCommitLock = 0 ↔ σ.holder = none
  idle : σ.holder = none → σ.pending = []

section Knows

variable {m₀ : A → V} {σ σ' : Shared A V T} {x : Tx A V}

theorem Knows.stable (h : Knows σ x) (hpc : x.pc.holding = false) : Knows σ' x := by
  refine ⟨h.buffered, ?_⟩
  have hhere := h.here
  unfold Here at hhere ⊢
  cases hx : x.pc with
  | out | beginClock | body | readValue a | readClock a val | lock rs ws =>
      rw [hx] at hhere
      exact hhere
  | _ =>
      rw [hx] at hpc
      cases hpc

def system (T : Type) (m₀ : A → V) : System Unit Unit Unit T (Shared A V T) (Tx A V) where
  slot := id
  core := core
  holding x := x.pc.holding
  Shape := Shape m₀
  Knows := Knows
  stable h _ hpc := h.stable hpc

theorem Knows.goto (h : Knows σ x) {pc : Pc A V} (hhere : Here σ { x with pc := pc }) :
    Knows σ { x with pc := pc } :=
  ⟨h.buffered, hhere⟩

theorem Knows.at (h : Knows σ x) {pc : Pc A V} (hpc : x.pc = pc) :
    Here σ { x with pc := pc } := by
  subst hpc
  exact h.here

theorem Knows.finish (σ : Shared A V T) (result : Option Bool) : Knows σ (Tx.finish result) :=
  ⟨.nil, trivial⟩

theorem Knows.legal (h : Knows σ x)
    (hreads : ∀ r ∈ x.readSet, σ.mem r.addr = r.capturedValue) : Legal σ.mem x.ops := by
  refine h.buffered.legal fun p hp => ?_
  obtain ⟨r, hr, rfl⟩ := List.mem_map.1 hp
  exact hreads r hr

theorem readValue_knows (h : Knows σ x) {a : A} (hpc : x.pc = .readValue a)
    (hsame : ∀ r ∈ x.readSet, r.addr = a → σ.mem a = r.capturedValue) :
    Knows σ (x.readValue a (σ.mem a)) ∧ (x.readValue a (σ.mem a)).pc.holding = false := by
  have hnone : x.writeSet.lookup a = none := h.at hpc
  unfold Tx.readValue
  split
  · next hany =>
      obtain ⟨r, hr, ha⟩ : ∃ r ∈ x.readSet, r.addr = a := by simpa using hany
      refine ⟨⟨h.buffered.reread hnone ?_, trivial⟩, rfl⟩
      rw [hsame r hr ha, ← ha]
      exact List.mem_map.2 ⟨r, hr, rfl⟩
  · exact ⟨h.goto hnone, rfl⟩

theorem compareFrom_knows (h : Knows σ x) {rest : List (ReadLogEntry A V)} {ws : List (A × V)}
    (hws : ws.Perm x.writeSet) (hpending : σ.pending = [])
    (hreads : ∀ r ∈ x.readSet, r ∈ rest ∨ σ.mem r.addr = r.capturedValue) :
    Knows σ (x.compareFrom rest ws) ∧ (x.compareFrom rest ws).pc.holding = true := by
  unfold Tx.compareFrom
  cases rest with
  | nil =>
      exact ⟨h.goto ⟨hws, hpending, fun r hr => (hreads r hr).resolve_left (by simp)⟩, rfl⟩
  | cons r rest => exact ⟨h.goto ⟨hws, hpending, hreads⟩, rfl⟩

theorem writeAll_of_perm (h : Knows σ x) {ws : List (A × V)} (hws : ws.Perm x.writeSet)
    (m : A → V) : writeAll m ws = final m x.ops := by
  have hnodup := (hws.map Prod.fst).nodup_iff.2 h.buffered.nodup
  funext a
  rw [writeAll_of_nodup m hnodup, h.buffered.final_eq, lookup_eq_of_perm hws hnodup]

end Knows

section Steps

variable [DecidableEq T] {m₀ : A → V} {s : Threads (Shared A V T) (Tx A V) T} {t : T}
  (h : (system T m₀).Inv s)
include h

variable {ws : List (A × V)}

theorem local_inv {x : Tx A V} {pc : Pc A V} (hpc : (s.tx t).pc = pc)
    (hhold : x.pc.holding = pc.holding) (hx : Knows s.shared x) :
    (system T m₀).Inv (s.put t s.shared x) :=
  h.put_same rfl h.shape (fun _ hy => hy) (hhold.trans (congrArg Pc.holding hpc).symm) hx

omit [DecidableEq T] in
theorem holder_eq {pc : Pc A V} (hpc : (s.tx t).pc = pc) (hhold : pc.holding = true) :
    s.shared.holder = some t :=
  (h.holder t).1 ((congrArg Pc.holding hpc).trans hhold)

theorem commit_inv [DecidableEq V] {rs : List (ReadLogEntry A V)} {q : Shared A V T × Tx A V}
    (hpc : (s.tx t).pc = .body) (hnext : commit s.shared (s.tx t) rs ws = some q)
    (hsteady : Steady s (t, .commit rs ws) s) : (system T m₀).Inv (s.put t q.1 q.2) := by
  have hk : Knows s.shared (s.tx t) := h.knows t
  unfold commit at hnext
  split at hnext
  · next hnil =>
      cases hnext
      unfold Steady at hsteady
      rw [hpc] at hsteady
      obtain ⟨hfree, hreads⟩ := hsteady hnil
      have hnone := h.shape.free.1 hfree
      have hpending := h.shape.idle hnone
      have hsame : final s.shared.mem (s.tx t).ops = s.shared.mem := by
        refine final_of_readOnly fun a => ?_
        rw [hk.buffered.writes, hnil]
        rfl
      refine h.put (.inr hnone) (.of_eq rfl rfl rfl rfl rfl) ⟨?_, h.shape.free, h.shape.idle⟩
        hnone (Knows.finish _ _)
      have hruns := h.shape.runs
      rw [hpending] at hruns
      refine serialRun_append hruns ⟨hk.legal hreads, ?_⟩
      show final s.shared.mem (s.tx t).ops = writeAll s.shared.mem s.shared.pending
      rw [hsame, hpending]
      rfl
  · split at hnext
    · split at hnext <;> cases hnext
      · next hperm => exact local_inv h hpc rfl (hk.goto hperm)
    · cases hnext
      exact local_inv h hpc rfl (Knows.finish _ _)

theorem lock_inv {rs : List (ReadLogEntry A V)} (hpc : (s.tx t).pc = .lock rs ws) :
    (system T m₀).Inv (s.put t (lock t s.shared (s.tx t) rs ws).1
      (lock t s.shared (s.tx t) rs ws).2) := by
  have hk : Knows s.shared (s.tx t) := h.knows t
  obtain ⟨hrs, hws⟩ : rs.Perm _ ∧ ws.Perm _ := hk.at hpc
  unfold lock
  split
  · next hfree =>
      have hnone := h.shape.free.1 hfree
      have hpending := h.shape.idle hnone
      have hk' : Knows { s.shared with gCommitLock := 1, holder := some t } (s.tx t) :=
        hk.stable (by rw [hpc]; rfl)
      have hshape : Shape m₀ { s.shared with gCommitLock := 1, holder := some t } :=
        ⟨h.shape.runs, ⟨fun h => (by cases h), fun h => (by cases h)⟩, fun h => (by cases h)⟩
      refine h.put (.inr hnone) (.of_eq rfl rfl rfl rfl rfl) hshape ?_ ?_
      · show some t = if (if _ then _ else _ : Tx A V).pc.holding then some t else none
        split
        · rw [(compareFrom_knows hk' hws hpending fun r hr => .inl (hrs.mem_iff.2 hr)).2,
              if_pos rfl]
        · rfl
      · split
        · exact (compareFrom_knows hk' hws hpending fun r hr => .inl (hrs.mem_iff.2 hr)).1
        · exact hk'.goto hpending
  · rw [Threads.put_self]
    exact h

theorem compare_inv [DecidableEq V] {r : ReadLogEntry A V} {rest : List (ReadLogEntry A V)}
    (hpc : (s.tx t).pc = .compare (r :: rest) ws) :
    (system T m₀).Inv (s.put t s.shared (compare s.shared (s.tx t) r rest ws)) := by
  have hk : Knows s.shared (s.tx t) := h.knows t
  obtain ⟨hws, hpending, hreads⟩ : ws.Perm _ ∧ s.shared.pending = [] ∧ _ := hk.at hpc
  unfold compare
  split
  · next hval =>
      obtain ⟨hknows, hhold⟩ := compareFrom_knows hk hws hpending fun r' hr' => by
        rcases hreads r' hr' with hmem | hmem
        · rcases List.mem_cons.1 hmem with rfl | hmem
          · exact .inr hval
          · exact .inl hmem
        · exact .inr hmem
      exact local_inv h hpc hhold hknows
  · exact local_inv h hpc rfl (hk.goto hpending)

theorem tick_inv (hpc : (s.tx t).pc = .tick ws) :
    (system T m₀).Inv (s.put t (tick s.shared (s.tx t) ws).1 (tick s.shared (s.tx t) ws).2) := by
  have hk : Knows s.shared (s.tx t) := h.knows t
  obtain ⟨hws, hpending, hreads⟩ : ws.Perm _ ∧ s.shared.pending = [] ∧ _ := hk.at hpc
  have hholder := holder_eq h hpc rfl
  refine h.put (.inl hholder) (.of_eq rfl rfl rfl rfl rfl) ⟨?_, h.shape.free, fun hnone => ?_⟩
    hholder ⟨hk.buffered, rfl⟩
  · have hruns := h.shape.runs
    rw [hpending] at hruns
    exact serialRun_append hruns ⟨hk.legal hreads, (writeAll_of_perm hk hws _).symm⟩
  · cases hholder.symm.trans hnone

theorem writeBack_inv {w : A × V} {rest : List (A × V)}
    (hpc : (s.tx t).pc = .writeBack (w :: rest)) :
    (system T m₀).Inv (s.put t (writeBack s.shared (s.tx t) w rest).1
      (writeBack s.shared (s.tx t) w rest).2) := by
  have hk : Knows s.shared (s.tx t) := h.knows t
  have hpending : s.shared.pending = w :: rest := hk.at hpc
  have hholder := holder_eq h hpc rfl
  have hshape : Shape m₀ (writeBack s.shared (s.tx t) w rest).1 := by
    refine ⟨?_, h.shape.free, fun hnone => ?_⟩
    · have hruns := h.shape.runs
      rw [hpending] at hruns
      exact hruns
    · cases hholder.symm.trans hnone
  cases rest with
  | nil => exact h.put (.inl hholder) (.of_eq rfl rfl rfl rfl rfl) hshape hholder ⟨hk.buffered, rfl⟩
  | cons w' rest =>
      exact h.put (.inl hholder) (.of_eq rfl rfl rfl rfl rfl) hshape hholder ⟨hk.buffered, rfl⟩

theorem release_inv {valid : Bool} (hpc : (s.tx t).pc = .release valid) :
    (system T m₀).Inv (s.put t (release s.shared valid).1 (release s.shared valid).2) := by
  have hpending : s.shared.pending = [] := Knows.at (h.knows t) hpc
  exact h.put (.inl (holder_eq h hpc rfl)) (.of_eq rfl rfl rfl rfl rfl)
    ⟨h.shape.runs, ⟨fun _ => rfl, fun _ => rfl⟩, fun _ => hpending⟩ rfl (Knows.finish _ _)

theorem next_inv [DecidableEq V] {c : Call A V} {q : Shared A V T × Tx A V}
    (hnext : next t s.shared (s.tx t) c = some q) (hsteady : Steady s (t, c) s) :
    (system T m₀).Inv (s.put t q.1 q.2) := by
  have hk : Knows s.shared (s.tx t) := h.knows t
  unfold next at hnext
  split at hnext <;> try cases hnext
  · next hpc => exact local_inv h hpc rfl (hk.goto trivial)
  · next hpc => exact local_inv h hpc rfl ⟨.nil, trivial⟩
  · next a hpc =>
      unfold Tx.readWord
      split
      · next v hv =>
          refine local_inv h rfl rfl ⟨hk.buffered.readOwn hv, ?_⟩
          unfold Here
          rw [hpc]
          trivial
      · next hnone => exact local_inv h hpc rfl (hk.goto hnone)
  · next a v hpc =>
      refine local_inv h rfl rfl ⟨hk.buffered.write a v, ?_⟩
      unfold Here Tx.writeWord
      rw [hpc]
      trivial
  · next hpc => exact local_inv h hpc rfl (Knows.finish _ _)
  · next rs ws hpc => exact commit_inv h hpc hnext hsteady
  · next a hpc =>
      unfold Steady at hsteady
      rw [hpc] at hsteady
      obtain ⟨hknows, hhold⟩ := readValue_knows hk hpc hsteady
      exact local_inv h hpc hhold hknows
  · next a val hpc =>
      refine local_inv h hpc rfl ⟨?_, trivial⟩
      have hread := hk.buffered.read (v := val) (hk.at hpc)
      simpa [Tx.readClock] using hread
  · next rs ws hpc => exact lock_inv h hpc
  · next r rest ws hpc => exact compare_inv h hpc
  · next ws hpc => exact tick_inv h hpc
  · next w rest hpc => exact writeBack_inv h hpc
  · next valid hpc => exact release_inv h hpc

end Steps

section Run

variable [DecidableEq V] [DecidableEq T] {s : Threads (Shared A V T) (Tx A V) T}

omit [DecidableEq V] [DecidableEq T] in
theorem inv_init (m₀ : A → V) : (system T m₀).Inv (init T m₀) where
  shape := ⟨rfl, ⟨fun _ => rfl, fun _ => rfl⟩, fun _ => rfl⟩
  holder t := by simp [system, init, core, Pc.holding]
  knows t := ⟨.nil, trivial⟩

end Run

end LeftRight
