import Mathlib.Data.Finset.Card
import ClangTM.Queue.Basic

/-!
# Where the tasks are

In an orderly run every task is in one place at a time: with a thread, in one queue, or finished.
`Core` says so with a map from the tasks to their places; the count of the active thread is the
number of the tasks that have been counted and not yet retired.
-/

namespace Queue

open Transition

variable {T : Type} {n : ℕ}

/-- A task that a thread has: not counted yet, counted, or executed. -/
inductive Stage
  | fresh | held | ended
  deriving DecidableEq

inductive Site (T : Type) (n : ℕ)
  | carried (t : T) (g : Stage)
  | queue (i : Fin n)
  deriving DecidableEq

def Pc.carry : Pc T n → Option (Task T × Stage)
  | .inline k | .count k _ => some (k, .fresh)
  | .guard k _ | .offer k _ | .route k _ | .push k _ | .run k => some (k, .held)
  | .signal k | .retire k => some (k, .ended)
  | _ => none

/-- What a thread is doing: `calling` is a call that an active thread makes while the pool is
up. -/
inductive Kind
  | idle | waited | calling | joining | working | gone
  deriving DecidableEq

def Pc.kind : Pc T n → Kind
  | .out .waitPrev => .waited
  | .count .. | .guard .. | .offer .. | .route .. | .push .. | .cas | .spinPrev => .calling
  | .join _ => .joining
  | .pick | .scan .. | .wait _ | .check _ | .recheck | .run _ | .signal _ | .retire _ => .working
  | .exited => .gone
  | _ => .idle

/-- The task is counted in `g_tm_pending_count`. -/
def opened : Option (Site T n) → Bool
  | some (.carried _ .fresh) | none => false
  | _ => true

def executed : Option (Site T n) → Bool
  | some (.carried _ .ended) | none => true
  | _ => false

def At (s : Threads (Shared T n) (Tx T n) T) : Site T n → Task T → Prop
  | .carried t g, k => (s.tx t).pc.carry = some (k, g)
  | .queue i, k => k ∈ s.shared.queues i

/-- The places of the tasks, and the tasks that are counted. -/
structure Core (main : T) (p : ℕ → Option (Site T n)) (O : Finset ℕ)
    (s : Threads (Shared T n) (Tx T n) T) : Prop where
  placed : ∀ a k, At s a k ↔ k ∈ s.shared.issued ∧ p k.id = some a
  nodup : ∀ i, (s.shared.queues i).Nodup
  ran : ∀ k, k ∈ s.shared.ran ↔ k ∈ s.shared.issued ∧ executed (p k.id) = true
  ran_nodup : s.shared.ran.Nodup
  ids : s.shared.issued.map Task.id = List.range s.shared.issued.length
  unborn : ∀ j, s.shared.issued.length ≤ j → p j = none
  opened : ∀ j, j ∈ O ↔ opened (p j) = true
  card : (s.shared.pending main).toNat = O.card
  lt : O.card < 2 ^ 31
  other : ∀ t, t ≠ main → s.shared.pending t = 0
  owner : ∀ k ∈ s.shared.issued, Queue.opened (p k.id) = true → k.owner = main
  fresh : ∀ k ∈ s.shared.issued, ∀ t, p k.id = some (.carried t .fresh) → k.owner = t
  returned : ∀ k ∈ s.shared.returned, k ∈ s.shared.issued ∧
    ∀ t, p k.id ≠ some (.carried t .fresh)
  due : ∀ k ∈ s.shared.due, k ∈ s.shared.returned

section Core

variable {main : T} {p : ℕ → Option (Site T n)} {O : Finset ℕ}
  {s s' : Threads (Shared T n) (Tx T n) T} {t : T} {σ : Shared T n} {x : Tx T n} {k : Task T}

section

variable (h : Core main p O s)
include h

theorem Core.id_lt (hk : k ∈ s.shared.issued) : k.id < s.shared.issued.length := by
  have hmem := List.mem_map_of_mem (f := Task.id) hk
  rw [h.ids] at hmem
  exact List.mem_range.1 hmem

theorem Core.eq_of_id {k' : Task T} (hk : k ∈ s.shared.issued) (hk' : k' ∈ s.shared.issued)
    (hid : k.id = k'.id) : k = k' := by
  have hnodup : (s.shared.issued.map Task.id).Nodup := by
    rw [h.ids]
    exact List.nodup_range
  exact List.inj_on_of_nodup_map hnodup hk hk' hid

theorem Core.exists_of_some {j : ℕ} {a : Site T n} (hj : p j = some a) :
    ∃ k ∈ s.shared.issued, k.id = j := by
  have hlt : j < s.shared.issued.length := by
    by_contra hge
    rw [h.unborn j (Nat.le_of_not_lt hge)] at hj
    cases hj
  have hmem : j ∈ s.shared.issued.map Task.id := by
    rw [h.ids]
    exact List.mem_range.2 hlt
  exact List.mem_map.1 hmem

theorem Core.carried {g : Stage} (hc : (s.tx t).pc.carry = some (k, g)) :
    k ∈ s.shared.issued ∧ p k.id = some (.carried t g) :=
  (h.placed (.carried t g) k).1 hc

theorem Core.opened_update {a : Option (Site T n)} {i : ℕ}
    (ha : Queue.opened a = Queue.opened (p i)) (j : ℕ) :
    j ∈ O ↔ Queue.opened (Function.update p i a j) = true := by
  rw [h.opened, Function.update_apply]
  split
  · next hj => rw [hj, ha]
  · exact Iff.rfl

end

variable [DecidableEq T]

section

variable (h : Core main p O s)
include h

theorem Core.move_placed (hissued : s'.shared.issued = s.shared.issued) (hk : k ∈ s.shared.issued)
    {a : Option (Site T n)}
    (hat : ∀ b k', At s' b k' ↔ (At s b k' ∧ ¬(k' = k ∧ p k.id = some b)) ∨ (k' = k ∧ a = some b))
    (b : Site T n) (k' : Task T) :
    At s' b k' ↔ k' ∈ s'.shared.issued ∧ Function.update p k.id a k'.id = some b := by
  rw [hat, h.placed, hissued]
  by_cases hkk : k' = k
  · subst hkk
    rw [Function.update_self]
    tauto
  · rw [Function.update_apply]
    split
    · next hid =>
        have hnot : k' ∉ s.shared.issued := fun hk' => hkk (h.eq_of_id hk' hk hid)
        tauto
    · tauto

theorem Core.stay (hqueues : σ.queues = s.shared.queues) (hissued : σ.issued = s.shared.issued)
    (hran : σ.ran = s.shared.ran) (hpending : σ.pending = s.shared.pending)
    (hreturned : σ.returned = s.shared.returned)
    (hdue : σ.due = s.shared.due ∨ σ.due = s.shared.returned)
    (hcarry : x.pc.carry = (s.tx t).pc.carry) : Core main p O (s.put t σ x) where
  placed a k := by
    rw [Threads.put_shared, hissued, ← h.placed]
    cases a with
    | carried u g =>
        by_cases hu : u = t
        · subst hu
          rw [At, At, Threads.put_tx_self, hcarry]
        · rw [At, At, Threads.put_tx_of_ne hu]
    | queue i => rw [At, At, Threads.put_shared, hqueues]
  nodup i := by
    rw [Threads.put_shared, hqueues]
    exact h.nodup i
  ran k := by
    rw [Threads.put_shared, hran, hissued]
    exact h.ran k
  ran_nodup := by
    rw [Threads.put_shared, hran]
    exact h.ran_nodup
  ids := by
    rw [Threads.put_shared, hissued]
    exact h.ids
  unborn j hj := h.unborn j (by rwa [Threads.put_shared, hissued] at hj)
  opened := h.opened
  card := by
    rw [Threads.put_shared, hpending]
    exact h.card
  lt := h.lt
  other u hu := by
    rw [Threads.put_shared, hpending]
    exact h.other u hu
  owner k hk := h.owner k (by rwa [Threads.put_shared, hissued] at hk)
  fresh k hk := h.fresh k (by rwa [Threads.put_shared, hissued] at hk)
  returned k hk := by
    rw [Threads.put_shared, hreturned] at hk
    rw [Threads.put_shared, hissued]
    exact h.returned k hk
  due k hk := by
    rw [Threads.put_shared, hreturned]
    rw [Threads.put_shared] at hk
    rcases hdue with hdue | hdue
    · exact h.due k (hdue ▸ hk)
    · exact hdue ▸ hk

theorem Core.move {a : Option (Site T n)} {O' : Finset ℕ}
    (hissued : s'.shared.issued = s.shared.issued) (hk : k ∈ s.shared.issued)
    (hat : ∀ b k', At s' b k' ↔ (At s b k' ∧ ¬(k' = k ∧ p k.id = some b)) ∨ (k' = k ∧ a = some b))
    (hnodup : ∀ i, (s'.shared.queues i).Nodup)
    (hran : s'.shared.ran = s.shared.ran ∧ executed a = executed (p k.id) ∨
      s'.shared.ran = s.shared.ran ++ [k] ∧ executed a = true ∧ executed (p k.id) = false)
    (hopened : ∀ j, j ∈ O' ↔ Queue.opened (Function.update p k.id a j) = true)
    (hcard : (s'.shared.pending main).toNat = O'.card) (hlt : O'.card < 2 ^ 31)
    (hother : ∀ u, u ≠ main → s'.shared.pending u = s.shared.pending u)
    (howner : Queue.opened a = true → k.owner = main) (hfresh : ∀ u, a ≠ some (.carried u .fresh))
    (hreturned : s'.shared.returned = s.shared.returned ∨
      s'.shared.returned = s.shared.returned ++ [k])
    (hdue : s'.shared.due = s.shared.due) : Core main (Function.update p k.id a) O' s' where
  placed := h.move_placed hissued hk hat
  nodup := hnodup
  ran k' := by
    rw [hissued]
    by_cases hkk : k' = k
    · subst hkk
      rw [Function.update_self]
      rcases hran with ⟨hran, ha⟩ | ⟨hran, ha, -⟩
      · rw [hran, ha]
        exact h.ran k'
      · simp [hran, ha, hk]
    · have hmem : k' ∈ s'.shared.ran ↔ k' ∈ s.shared.ran := by
        rcases hran with ⟨hran, -⟩ | ⟨hran, -⟩ <;> simp [hran, hkk]
      rw [hmem, h.ran]
      refine and_congr_right fun hk' => ?_
      rw [Function.update_of_ne fun hid => hkk (h.eq_of_id hk' hk hid)]
  ran_nodup := by
    rcases hran with ⟨hran, -⟩ | ⟨hran, -, hnew⟩
    · rw [hran]
      exact h.ran_nodup
    · have hnot : k ∉ s.shared.ran := fun hmem => by simp [((h.ran k).1 hmem).2] at hnew
      rw [hran, List.nodup_append]
      exact ⟨h.ran_nodup, List.nodup_singleton k, fun b hb c hc hbc =>
        hnot (List.mem_singleton.1 hc ▸ hbc ▸ hb)⟩
  ids := by
    rw [hissued]
    exact h.ids
  unborn j hj := by
    rw [hissued] at hj
    rw [Function.update_of_ne (by have := h.id_lt hk; omega)]
    exact h.unborn j hj
  opened := hopened
  card := hcard
  lt := hlt
  other u hu := (hother u hu).trans (h.other u hu)
  owner k' hk' ho := by
    rw [hissued] at hk'
    rw [Function.update_apply] at ho
    split at ho
    · next hid =>
        rw [h.eq_of_id hk' hk hid]
        exact howner ho
    · exact h.owner k' hk' ho
  fresh k' hk' u hu := by
    rw [hissued] at hk'
    rw [Function.update_apply] at hu
    split at hu
    · exact absurd hu (hfresh u)
    · exact h.fresh k' hk' u hu
  returned k' hk' := by
    rw [hissued, Function.update_apply]
    by_cases hkk : k' = k
    · subst hkk
      rw [if_pos rfl]
      exact ⟨hk, hfresh⟩
    · have hold : k' ∈ s.shared.returned := by
        rcases hreturned with hr | hr <;> simpa [hr, hkk] using hk'
      have hk' := (h.returned k' hold).1
      rw [if_neg fun hid => hkk (h.eq_of_id hk' hk hid)]
      exact h.returned k' hold
  due k' hk' := by
    rw [hdue] at hk'
    have := h.due k' hk'
    rcases hreturned with hr | hr <;> simp [hr, this]

theorem Core.at_put {g : Stage} (hc : (s.tx t).pc.carry = some (k, g))
    (hqueues : σ.queues = s.shared.queues) {a : Option Stage}
    (hx : x.pc.carry = a.map fun g' => (k, g')) (b : Site T n) (k' : Task T) :
    At (s.put t σ x) b k' ↔ (At s b k' ∧ ¬(k' = k ∧ p k.id = some b)) ∨
      (k' = k ∧ a.map (Site.carried t) = some b) := by
  rw [(h.carried hc).2]
  cases b with
  | carried u g' =>
      by_cases hu : u = t
      · subst hu
        rw [At, At, Threads.put_tx_self, hc, hx]
        cases a <;> simp <;> grind
      · rw [At, At, Threads.put_tx_of_ne hu]
        simp [Ne.symm hu]
  | queue i =>
      rw [At, At, Threads.put_shared, hqueues]
      simp

theorem Core.inline (hc : (s.tx t).pc.carry = some (k, .fresh)) (hx : x.pc.carry = none) :
    Core main (Function.update p k.id none) O (s.put t ((s.shared.finish k).leave k) x) := by
  obtain ⟨hk, hp⟩ := h.carried hc
  refine h.move rfl hk (h.at_put (a := none) hc rfl hx) h.nodup ?_
    (h.opened_update (by rw [hp]; rfl)) h.card h.lt (fun _ _ => rfl) nofun nofun (.inr rfl) rfl
  exact .inr ⟨rfl, rfl, by rw [hp]; rfl⟩

theorem Core.count (hc : (s.tx main).pc.carry = some (k, .fresh))
    (hlt : (s.shared.pending main).toNat + 1 < 2 ^ 31) (hx : x.pc.carry = some (k, .held)) :
    Core main (Function.update p k.id (some (.carried main .held))) (insert k.id O)
      (s.put main { s.shared with
        pending := Function.update s.shared.pending main (s.shared.pending main + 1) } x) := by
  obtain ⟨hk, hp⟩ := h.carried hc
  have hnot : k.id ∉ O := by
    rw [h.opened, hp]
    simp [Queue.opened]
  have hcard : (insert k.id O).card = (s.shared.pending main).toNat + 1 := by
    rw [Finset.card_insert_of_notMem hnot, h.card]
  refine h.move rfl hk (h.at_put (a := some .held) hc rfl hx) h.nodup (.inl ⟨rfl, by rw [hp]; rfl⟩)
    (fun j => ?_) ?_ (by omega) (fun u hu => Function.update_of_ne hu _ _)
    (fun _ => h.fresh k hk main hp) nofun (.inl rfl) rfl
  · rw [Finset.mem_insert, h.opened, Function.update_apply]
    split
    · next hj => simp [hj, Queue.opened]
    · next hj => simp [hj]
  · dsimp only [Threads.put_shared]
    rw [hcard, Function.update_self, BitVec.toNat_add]
    exact Nat.mod_eq_of_lt (by change _ + 1 < _; omega)

theorem Core.run (hc : (s.tx t).pc.carry = some (k, .held)) (hx : x.pc.carry = some (k, .ended)) :
    Core main (Function.update p k.id (some (.carried t .ended))) O
      (s.put t (s.shared.finish k) x) := by
  obtain ⟨hk, hp⟩ := h.carried hc
  refine h.move rfl hk (h.at_put (a := some .ended) hc rfl hx) h.nodup ?_
    (h.opened_update (by rw [hp]; rfl)) h.card h.lt (fun _ _ => rfl) ?_ nofun (.inl rfl) rfl
  · exact .inr ⟨rfl, rfl, by rw [hp]; rfl⟩
  · exact fun _ => h.owner k hk (by rw [hp]; rfl)

theorem Core.retire (hc : (s.tx t).pc.carry = some (k, .ended)) (hx : x.pc.carry = none) :
    Core main (Function.update p k.id none) (O.erase k.id)
      (s.put t { s.shared with
        pending :=
          Function.update s.shared.pending k.owner (s.shared.pending k.owner - 1) } x) := by
  obtain ⟨hk, hp⟩ := h.carried hc
  have hmem : k.id ∈ O := by
    rw [h.opened, hp]
    rfl
  have howner : k.owner = main := h.owner k hk ((h.opened _).1 hmem)
  have hpos : 0 < O.card := Finset.card_pos.2 ⟨_, hmem⟩
  have hcard := Finset.card_erase_of_mem hmem
  refine h.move rfl hk (h.at_put (a := none) hc rfl hx) h.nodup (.inl ⟨rfl, by rw [hp]; rfl⟩)
    (fun j => ?_) ?_ (by have := h.lt; omega) (fun u hu => ?_) nofun nofun (.inl rfl) rfl
  · rw [Finset.mem_erase, h.opened, Function.update_apply]
    split
    · next hj => simp [hj, Queue.opened]
    · next hj => simp [hj]
  · dsimp only [Threads.put_shared]
    rw [hcard, howner, Function.update_self, ← h.card, BitVec.toNat_sub]
    have := h.card
    change (2 ^ 32 - 1 + _) % 2 ^ 32 = _
    omega
  · rw [Threads.put_shared, howner]
    exact Function.update_of_ne hu _ _

theorem Core.push {i : Fin n} (hpc : (s.tx t).pc = .push k i) :
    Core main (Function.update p k.id (some (.queue i))) O
      (s.put t (push s.shared (s.tx t) k i).1 (push s.shared (s.tx t) k i).2) := by
  have hc : (s.tx t).pc.carry = some (k, .held) := by rw [hpc]; rfl
  obtain ⟨hk, hp⟩ := h.carried hc
  have hnot : ∀ j, k ∉ s.shared.queues j := fun j hmem => by
    have := ((h.placed (.queue j) k).1 hmem).2
    rw [hp] at this
    cases this
  refine h.move rfl hk (fun b k' => ?_) (fun j => ?_) (.inl ⟨rfl, by rw [hp]; rfl⟩)
    (h.opened_update (by rw [hp]; rfl)) h.card h.lt (fun _ _ => rfl) ?_ nofun (.inr rfl) rfl
  · rw [hp]
    cases b with
    | carried u g =>
        by_cases hu : u = t
        · subst hu
          rw [At, At, Threads.put_tx_self, hc]
          simp [Queue.push, Pc.carry]
          grind
        · rw [At, At, Threads.put_tx_of_ne hu]
          simp [Ne.symm hu]
    | queue j =>
        dsimp only [At, Threads.put_shared, Queue.push]
        rw [Function.update_apply]
        split
        · next hj => simp [hj]
        · next hj => simp [Ne.symm hj]
  · dsimp only [Threads.put_shared, Queue.push]
    rw [Function.update_apply]
    split
    · next hj =>
        rw [List.nodup_append]
        exact ⟨h.nodup i, List.nodup_singleton k, fun b hb c hc hbc =>
          hnot i (List.mem_singleton.1 hc ▸ hbc ▸ hb)⟩
    · exact h.nodup j
  · exact fun _ => h.owner k hk (by rw [hp]; rfl)

theorem Core.pop {i : Fin n} {rest : List (Task T)} (hi : s.shared.queues i = k :: rest)
    (hc : (s.tx t).pc.carry = none) (hx : x.pc.carry = some (k, .held)) :
    Core main (Function.update p k.id (some (.carried t .held))) O
      (s.put t { s.shared with queues := Function.update s.shared.queues i rest } x) := by
  obtain ⟨hk, hp⟩ := (h.placed (.queue i) k).1 (by rw [At, hi]; exact List.mem_cons_self)
  have hnodup := h.nodup i
  rw [hi, List.nodup_cons] at hnodup
  refine h.move rfl hk (fun b k' => ?_) (fun j => ?_) (.inl ⟨rfl, by rw [hp]; rfl⟩)
    (h.opened_update (by rw [hp]; rfl)) h.card h.lt (fun _ _ => rfl) ?_ nofun (.inl rfl) rfl
  · rw [hp]
    cases b with
    | carried u g =>
        by_cases hu : u = t
        · subst hu
          rw [At, At, Threads.put_tx_self, hc, hx]
          simp
          grind
        · rw [At, At, Threads.put_tx_of_ne hu]
          simp [Ne.symm hu]
    | queue j =>
        dsimp only [At, Threads.put_shared]
        rw [Function.update_apply]
        split
        · next hj =>
            rw [hj, hi]
            simp
            grind
        · next hj => simp [Ne.symm hj]
  · dsimp only [Threads.put_shared]
    rw [Function.update_apply]
    split
    · exact hnodup.2
    · exact h.nodup j
  · exact fun _ => h.owner k hk (by rw [hp]; rfl)

theorem Core.issue {tracked : Bool} (hc : (s.tx t).pc.carry = none)
    (hissued : σ.issued = s.shared.issued ++ [s.shared.task t tracked])
    (hqueues : σ.queues = s.shared.queues) (hran : σ.ran = s.shared.ran)
    (hpending : σ.pending = s.shared.pending) (hreturned : σ.returned = s.shared.returned)
    (hdue : σ.due = s.shared.due) (hx : x.pc.carry = some (s.shared.task t tracked, .fresh)) :
    Core main (Function.update p s.shared.issued.length (some (.carried t .fresh))) O
      (s.put t σ x) := by
  have hold : ∀ {k' : Task T}, k' ∈ s.shared.issued →
      Function.update p s.shared.issued.length (some (.carried t .fresh)) k'.id = p k'.id :=
    fun hk' => Function.update_of_ne (h.id_lt hk').ne _ _
  have hnew : s.shared.task t tracked ∉ s.shared.issued := fun hmem => (h.id_lt hmem).ne rfl
  have hself : Function.update p s.shared.issued.length (some (.carried t .fresh))
      (s.shared.task t tracked).id = some (.carried t .fresh) := Function.update_self _ _ _
  have hsplit : ∀ k', k' ∈ σ.issued ↔ k' ∈ s.shared.issued ∨ k' = s.shared.task t tracked := by
    intro k'
    simp [hissued]
  constructor
  · intro b k'
    have hb : At (s.put t σ x) b k' ↔ At s b k' ∨
        (k' = s.shared.task t tracked ∧ b = .carried t .fresh) := by
      cases b with
      | carried u g =>
          by_cases hu : u = t
          · subst hu
            rw [At, At, Threads.put_tx_self, hc, hx]
            simp
            grind
          · rw [At, At, Threads.put_tx_of_ne hu]
            simp [hu]
      | queue i =>
          rw [At, At, Threads.put_shared, hqueues]
          simp
    rw [hb, Threads.put_shared, hsplit, h.placed]
    by_cases hk' : k' = s.shared.task t tracked
    · subst hk'
      rw [hself]
      simp [hnew, eq_comm]
    · by_cases hmem : k' ∈ s.shared.issued
      · simp [hk', hmem, hold hmem]
      · simp [hk', hmem]
  · intro i
    rw [Threads.put_shared, hqueues]
    exact h.nodup i
  · intro k'
    rw [Threads.put_shared, hran, hsplit, h.ran]
    by_cases hk' : k' = s.shared.task t tracked
    · subst hk'
      rw [hself]
      simp [hnew, executed]
    · by_cases hmem : k' ∈ s.shared.issued
      · simp [hmem, hold hmem]
      · simp [hk', hmem]
  · rw [Threads.put_shared, hran]
    exact h.ran_nodup
  · rw [Threads.put_shared, hissued, List.map_append, h.ids, List.length_append,
      List.length_singleton, List.range_succ]
    rfl
  · intro j hj
    rw [Threads.put_shared, hissued, List.length_append, List.length_singleton] at hj
    rw [Function.update_of_ne (by omega)]
    exact h.unborn j (by omega)
  · exact h.opened_update (by rw [h.unborn _ le_rfl]; rfl)
  · rw [Threads.put_shared, hpending]
    exact h.card
  · exact h.lt
  · intro u hu
    rw [Threads.put_shared, hpending]
    exact h.other u hu
  · intro k' hk' ho
    rcases (hsplit k').1 hk' with hmem | rfl
    · rw [hold hmem] at ho
      exact h.owner k' hmem ho
    · rw [hself] at ho
      cases ho
  · intro k' hk' u hu
    rcases (hsplit k').1 hk' with hmem | rfl
    · rw [hold hmem] at hu
      exact h.fresh k' hmem u hu
    · rw [hself] at hu
      cases hu
      rfl
  · intro k' hk'
    rw [Threads.put_shared, hreturned] at hk'
    obtain ⟨hmem, hfresh⟩ := h.returned k' hk'
    rw [hold hmem]
    exact ⟨(hsplit k').2 (.inl hmem), hfresh⟩
  · intro k' hk'
    rw [Threads.put_shared, hdue] at hk'
    rw [Threads.put_shared, hreturned]
    exact h.due k' hk'

end

end Core

end Queue
