import ClangTM.Queue.Tasks

/-!
# Shutting the queue runtime down

`Local` is what the threads know about the pool: only the thread that has set the queue up is ever
active, it does nothing else while it waits for the workers, and a worker that has left has no task
any more. If the workers leave only when the queues are empty, no counted task is left once all of
them have left.
-/

namespace Queue

open Transition

variable {T : Type}

structure Local (P : Pool T) (main : T) (σ : Shared T P.numQueues) (t : T)
    (x : Tx T P.numQueues) : Prop where
  active : x.active = true → t = main
  working : x.pc.kind = .working → t ∈ P.workers
  calling : x.pc.kind = .calling → t = main ∧ σ.shutdown = false
  joining : ∀ rest, x.pc = .join rest → t = main ∧ σ.shutdown = true ∧
    ∀ w ∈ P.workers, w ∈ rest ∨ w ∈ σ.exited
  waited : x.pc.kind = .waited → ∀ k ∈ σ.issued, k.owner = t → k ∈ σ.ran
  shut : t = main → σ.shutdown = true → x.active = false ∨ x.pc.kind = .joining
  finished : t = main → x.active = false → σ.executor = false
  exited : t ∈ σ.exited → x.pc.kind = .gone

structure Closed (P : Pool T) (σ : Shared T P.numQueues) : Prop where
  drained : σ.exited ≠ [] → σ.shutdown = true ∧ ∀ i, σ.queues i = []
  closed : σ.executor = false → ∀ w ∈ P.workers, w ∈ σ.exited

structure Inv (P : Pool T) (main : T) (p : ℕ → Option (Site T P.numQueues)) (O : Finset ℕ)
    (s : Threads (Shared T P.numQueues) (Tx T P.numQueues) T) : Prop where
  core : Core main p O s
  threads : ∀ t, Local P main s.shared t (s.tx t)
  pool : Closed P s.shared

structure Frame {n : ℕ} (main t : T) (σ σ' : Shared T n) : Prop where
  shutdown : σ'.shutdown = σ.shutdown ∨ t = main
  exited : σ'.exited = σ.exited ∨ σ'.exited = t :: σ.exited
  issued : ∀ k ∈ σ'.issued, k ∈ σ.issued ∨ k.owner = t
  ran : ∀ k ∈ σ.ran, k ∈ σ'.ran
  executor : σ'.executor = σ.executor ∨ σ'.executor = false

section Steps

variable {P : Pool T} {main t u : T} {σ σ' : Shared T P.numQueues} {x x' y : Tx T P.numQueues}

theorem Frame.same (hshut : σ'.shutdown = σ.shutdown) (hexited : σ'.exited = σ.exited)
    (hissued : σ'.issued = σ.issued) (hran : ∀ k ∈ σ.ran, k ∈ σ'.ran)
    (hexec : σ'.executor = σ.executor) : Frame main t σ σ' :=
  ⟨.inl hshut, .inl hexited, fun _ hk => .inl (hissued ▸ hk), hran, .inl hexec⟩

theorem Local.frame (h : Local P main σ u y) (hu : u ≠ t) (hf : Frame main t σ σ') :
    Local P main σ' u y := by
  have hshut : u = main → σ'.shutdown = σ.shutdown := fun hm =>
    hf.shutdown.resolve_right fun ht => hu (hm.trans ht.symm)
  have hexited : ∀ w, w ∈ σ.exited → w ∈ σ'.exited := by
    rcases hf.exited with he | he <;> intro w hw <;> simp [he, hw]
  refine ⟨h.active, h.working, fun hk => ?_, fun rest hpc => ?_, fun hk k hi ho => ?_,
    fun hm hs => ?_, fun hm ha => ?_, fun he => ?_⟩
  · obtain ⟨hm, hs⟩ := h.calling hk
    exact ⟨hm, (hshut hm).trans hs⟩
  · obtain ⟨hm, hs, hw⟩ := h.joining rest hpc
    exact ⟨hm, (hshut hm).trans hs, fun w hmem => (hw w hmem).imp_right (hexited w)⟩
  · rcases hf.issued k hi with hold | hnew
    · exact hf.ran k (h.waited hk k hold ho)
    · exact absurd (ho.symm.trans hnew) hu
  · exact h.shut hm ((hshut hm).symm.trans hs)
  · rcases hf.executor with he | he
    · exact he.trans (h.finished hm ha)
    · exact he
  · refine h.exited ?_
    rcases hf.exited with he' | he'
    · rwa [he'] at he
    · rw [he'] at he
      exact (List.mem_cons.1 he).resolve_left hu

variable {q : Pc T P.numQueues}

theorem Local.go (h : Local P main σ t x) (hpc : x.pc = q) (hactive : x'.active = x.active)
    (hshut : σ'.shutdown = σ.shutdown) (hexited : σ'.exited = σ.exited)
    (hexec : σ'.executor = σ.executor) (hgone : q.kind ≠ .gone) (hjoin : q.kind ≠ .joining)
    (hkind : x'.pc.kind = .idle ∨ x'.pc.kind = q.kind ∧ q.kind ≠ .waited) :
    Local P main σ' t x' := by
  subst hpc
  have hsame : x'.pc.kind ≠ .idle → x'.pc.kind = x.pc.kind ∧ x.pc.kind ≠ .waited :=
    hkind.resolve_left
  refine ⟨fun ha => h.active (hactive ▸ ha), fun hk => ?_, fun hk => ?_, fun rest hpc => ?_,
    fun hk => ?_, fun hm hs => ?_, fun hm ha => ?_, fun he => ?_⟩
  · exact h.working ((hsame (by simp [hk])).1.symm.trans hk)
  · rw [hshut]
    exact h.calling ((hsame (by simp [hk])).1.symm.trans hk)
  · have hk : x'.pc.kind = .joining := by rw [hpc]; rfl
    exact absurd ((hsame (by simp [hk])).1.symm.trans hk) hjoin
  · obtain ⟨heq, hne⟩ := hsame (by simp [hk])
    exact absurd (heq.symm.trans hk) hne
  · rw [hactive]
    exact .inl ((h.shut hm (hshut ▸ hs)).resolve_right hjoin)
  · rw [hexec]
    exact h.finished hm (hactive ▸ ha)
  · exact absurd (h.exited (hexited ▸ he)) hgone

theorem Local.call (h : Local P main σ t x) (ha : x.active = true) (hactive : x'.active = x.active)
    (hshut : σ'.shutdown = σ.shutdown) (hexited : σ'.exited = σ.exited)
    (hgone : x.pc.kind ≠ .gone) (hjoin : x.pc.kind ≠ .joining) (hkind : x'.pc.kind = .calling) :
    Local P main σ' t x' := by
  have hm := h.active ha
  have hdown : σ.shutdown = false := by
    cases hs : σ.shutdown with
    | false => rfl
    | true =>
        rcases h.shut hm hs with hf | hf
        · simp [ha] at hf
        · exact absurd hf hjoin
  refine ⟨fun _ => hm, fun hk => ?_, fun _ => ⟨hm, hshut.trans hdown⟩, fun rest hpc => ?_,
    fun hk => ?_, fun _ hs => ?_, fun _ hf => ?_, fun he => ?_⟩
  · simp [hk] at hkind
  · simp [hpc, Pc.kind] at hkind
  · simp [hk] at hkind
  · simp [hshut, hdown] at hs
  · simp [hactive, ha] at hf
  · exact absurd (h.exited (hexited ▸ he)) hgone

theorem Closed.same (h : Closed P σ) (hshut : σ'.shutdown = σ.shutdown)
    (hexited : σ'.exited = σ.exited) (hexec : σ'.executor = σ.executor)
    (hqueues : σ.exited ≠ [] → ∀ i, σ'.queues i = σ.queues i) : Closed P σ' := by
  refine ⟨fun he => ?_, fun hf => ?_⟩
  · rw [hexited] at he
    rw [hshut]
    exact ⟨(h.drained he).1, fun i => (hqueues he i).trans ((h.drained he).2 i)⟩
  · rw [hexited]
    exact h.closed (hexec ▸ hf)

variable {p p' : ℕ → Option (Site T P.numQueues)} {O O' : Finset ℕ}
  {s : Threads (Shared T P.numQueues) (Tx T P.numQueues) T}

theorem Pc.kind_of_carry {n : ℕ} {pc : Pc T n} {k : Task T} {g : Stage}
    (h : pc.carry = some (k, g)) (hg : g ≠ .fresh) : pc.kind = .working ∨ pc.kind = .calling := by
  cases pc <;> simp_all [Pc.carry, Pc.kind]

theorem Inv.none_open (hi : Inv P main p O s) (hall : ∀ w ∈ P.workers, w ∈ s.shared.exited) :
    O = ∅ := by
  obtain ⟨w, hw⟩ := List.exists_mem_of_ne_nil _ P.workers_ne
  obtain ⟨hdown, hqueues⟩ := hi.pool.drained (List.ne_nil_of_mem (hall w hw))
  refine Finset.eq_empty_of_forall_notMem fun j hj => ?_
  rw [hi.core.opened] at hj
  cases hp : p j with
  | none => simp [hp, opened] at hj
  | some a =>
      obtain ⟨k, hk, rfl⟩ := hi.core.exists_of_some hp
      have hat := (hi.core.placed a k).2 ⟨hk, hp⟩
      cases a with
      | carried u g =>
          have hg : g ≠ .fresh := fun hg => by simp [hp, hg, opened] at hj
          rcases Pc.kind_of_carry hat hg with hkind | hkind
          · have := (hi.threads u).exited (hall u ((hi.threads u).working hkind))
            simp [hkind] at this
          · have := ((hi.threads u).calling hkind).2
            simp [hdown] at this
      | queue i =>
          rw [At, hqueues i] at hat
          cases hat

theorem Inv.open_of_inactive (hi : Inv P main p O s) (ha : (s.tx main).active = false) : O = ∅ :=
  hi.none_open (hi.pool.closed ((hi.threads main).finished rfl ha))

/-- A thread that has nothing in hand and no counted task has seen all its tasks through. -/
theorem Inv.ran_of_owner (hi : Inv P main p O s) (hcarry : (s.tx t).pc.carry = none)
    (hopen : t = main → O = ∅) : ∀ k ∈ s.shared.issued, k.owner = t → k ∈ s.shared.ran := by
  intro k hk ho
  refine (hi.core.ran k).2 ⟨hk, ?_⟩
  have hclosed : opened (p k.id) = false := by
    rw [Bool.eq_false_iff]
    intro hop
    have hmem := (hi.core.opened k.id).2 hop
    rw [hopen (ho.symm.trans (hi.core.owner k hk hop))] at hmem
    cases hmem
  cases hp : p k.id with
  | none => rfl
  | some a =>
      cases a with
      | carried u g =>
          cases g with
          | fresh =>
              have hut : u = t := (hi.core.fresh k hk u hp).symm.trans ho
              have hat : At s (.carried u .fresh) k := (hi.core.placed _ _).2 ⟨hk, hp⟩
              rw [At, hut, hcarry] at hat
              cases hat
          | held | ended => simp [hp, opened] at hclosed
      | queue i => simp [hp, opened] at hclosed

theorem rescan_carry (n start attempt : ℕ) : (rescan n start attempt : Pc T n).carry = none := by
  unfold rescan
  split <;> rfl

theorem rescan_kind (n start attempt : ℕ) : (rescan n start attempt : Pc T n).kind = .working := by
  unfold rescan
  split <;> rfl

theorem kind_out {last : Ret} (hpc : x.pc = .out last) :
    x.pc.kind ≠ .gone ∧ x.pc.kind ≠ .joining := by
  rw [hpc]
  cases last <;> simp [Pc.kind]

variable [DecidableEq T]

section

variable (hi : Inv P main p O s)
include hi

theorem Inv.put (hcore : Core main p' O' (s.put t σ x)) (hlocal : Local P main σ t x)
    (hf : Frame main t s.shared σ) (hpool : Closed P σ) : Inv P main p' O' (s.put t σ x) where
  core := hcore
  threads u := by
    by_cases hu : u = t
    · subst hu
      rw [Threads.put_tx_self]
      exact hlocal
    · rw [Threads.put_tx_of_ne hu]
      exact (hi.threads u).frame hu hf
  pool := hpool

theorem Inv.go (hpc : (s.tx t).pc = q) (hcore : Core main p' O' (s.put t σ x))
    (hactive : x.active = (s.tx t).active)
    (hshut : σ.shutdown = s.shared.shutdown) (hexited : σ.exited = s.shared.exited)
    (hexec : σ.executor = s.shared.executor) (hissued : σ.issued = s.shared.issued)
    (hran : ∀ k ∈ s.shared.ran, k ∈ σ.ran)
    (hqueues : s.shared.exited ≠ [] → ∀ i, σ.queues i = s.shared.queues i)
    (hgone : q.kind ≠ .gone) (hjoin : q.kind ≠ .joining)
    (hkind : x.pc.kind = .idle ∨ x.pc.kind = q.kind ∧ q.kind ≠ .waited) :
    Inv P main p' O' (s.put t σ x) :=
  hi.put hcore ((hi.threads t).go hpc hactive hshut hexited hexec hgone hjoin hkind)
    (.same hshut hexited hissued hran hexec) (hi.pool.same hshut hexited hexec hqueues)

theorem Inv.stay (hpc : (s.tx t).pc = q) (hqueues : σ.queues = s.shared.queues)
    (hissued : σ.issued = s.shared.issued) (hran : σ.ran = s.shared.ran)
    (hpending : σ.pending = s.shared.pending) (hreturned : σ.returned = s.shared.returned)
    (hdue : σ.due = s.shared.due) (hshut : σ.shutdown = s.shared.shutdown)
    (hexited : σ.exited = s.shared.exited) (hexec : σ.executor = s.shared.executor)
    (hactive : x.active = (s.tx t).active) (hcarry : x.pc.carry = q.carry)
    (hgone : q.kind ≠ .gone) (hjoin : q.kind ≠ .joining)
    (hkind : x.pc.kind = .idle ∨ x.pc.kind = q.kind ∧ q.kind ≠ .waited) :
    Inv P main p O (s.put t σ x) :=
  hi.go hpc (hi.core.stay hqueues hissued hran hpending hreturned (.inl hdue) (hpc ▸ hcarry))
    hactive hshut hexited hexec hissued (fun k hk => by rwa [hran]) (fun _ i => by rw [hqueues])
    hgone hjoin hkind

theorem submit_inv {last : Ret} (hpc : (s.tx t).pc = .out last) {tracked : Bool} {queue : ℤ}
    (hσ : σ = { (submit t s.shared (s.tx t) tracked queue).1 with nextTxId := σ.nextTxId })
    (hx : x = { (submit t s.shared (s.tx t) tracked queue).2 with completions := x.completions }) :
    ∃ p', Inv P main p' O (s.put t σ x) := by
  have hcarry : (s.tx t).pc.carry = none := by rw [hpc]; rfl
  have hkind := kind_out hpc
  have hnew : x.pc.carry = some (s.shared.task t tracked, .fresh) := by
    rw [hx]
    dsimp only [submit]
    split <;> rfl
  have hcore := hi.core.issue hcarry (σ := σ) (x := x) (by rw [hσ]; rfl) (by rw [hσ]; rfl)
    (by rw [hσ]; rfl) (by rw [hσ]; rfl) (by rw [hσ]; rfl) (by rw [hσ]; rfl) hnew
  have hactive : x.active = (s.tx t).active := by rw [hx]; rfl
  have hshut : σ.shutdown = s.shared.shutdown := by rw [hσ]; rfl
  have hexited : σ.exited = s.shared.exited := by rw [hσ]; rfl
  have hexec : σ.executor = s.shared.executor := by rw [hσ]; rfl
  refine ⟨_, hi.put hcore ?_ ⟨.inl hshut, .inl hexited, fun k hk => ?_, fun k hk => ?_, .inl hexec⟩
    (hi.pool.same hshut hexited hexec fun _ i => by rw [hσ]; rfl)⟩
  · cases ha : (s.tx t).active with
    | true =>
        refine (hi.threads t).call ha hactive hshut hexited hkind.1 hkind.2 ?_
        rw [hx]
        simp [submit, ha, Pc.kind]
    | false =>
        refine (hi.threads t).go rfl hactive hshut hexited hexec hkind.1 hkind.2 (.inl ?_)
        rw [hx]
        simp [submit, ha, Pc.kind]
  · rw [hσ] at hk
    simp only [submit, List.mem_append, List.mem_singleton] at hk
    rcases hk with hk | rfl
    · exact .inl hk
    · exact .inr rfl
  · rw [hσ]
    exact hk

theorem track_inv {last : Ret} (hpc : (s.tx t).pc = .out last) (queue : ℤ) :
    ∃ p', Inv P main p' O (s.put t (track t s.shared (s.tx t) queue).1
      (track t s.shared (s.tx t) queue).2) := by
  unfold track
  dsimp only
  split
  · exact submit_inv hi hpc rfl rfl
  · exact submit_inv hi hpc rfl rfl

theorem pop_inv (i : Fin P.numQueues) {pc : Pc T P.numQueues} (hcarry : (s.tx t).pc.carry = none)
    (hwork : (s.tx t).pc.kind = .working) (hcarry' : pc.carry = none)
    (hwork' : pc.kind = .working) :
    ∃ p', Inv P main p' O (s.put t (pop s.shared (s.tx t) i pc).1
        (pop s.shared (s.tx t) i pc).2) := by
  unfold pop
  split
  · next k rest hq =>
      refine ⟨_, hi.go rfl (hi.core.pop hq hcarry rfl) rfl rfl rfl rfl rfl (fun _ hk => hk)
        (fun he => ?_) (by simp [hwork]) (by simp [hwork]) (.inr ⟨hwork.symm, by simp [hwork]⟩)⟩
      have := (hi.pool.drained he).2 i
      simp [hq] at this
  · exact ⟨p, hi.stay rfl rfl rfl rfl rfl rfl rfl rfl rfl rfl rfl (by rw [hcarry, hcarry'])
      (by simp [hwork]) (by simp [hwork]) (.inr (by simp [hwork, hwork']))⟩

end

theorem slot_ne_none {n : ℕ} {c : BitVec 32} (hn : 0 < n) (hc : c.toNat < 2 ^ 31) :
    slot n c ≠ none := by
  unfold slot
  rw [dif_pos]
  · nofun
  · have hint : c.toInt = (c.toNat : ℤ) := BitVec.toInt_eq_toNat_of_lt (by omega)
    rw [hint, ← Int.ofNat_tmod]
    exact ⟨Int.natCast_nonneg _, by rw [Int.toNat_natCast]; exact Nat.mod_lt _ hn⟩

section

variable (hi : Inv P main p O s)
include hi

theorem scan_inv {start attempt : ℕ} (hpc : (s.tx t).pc = .scan start attempt)
    (hlt : start + attempt < 2 ^ 31) :
    ∃ p', Inv P main p' O (s.put t (scan s.shared (s.tx t) start attempt).1
      (scan s.shared (s.tx t) start attempt).2) := by
  unfold scan
  split
  · refine pop_inv hi _ (by rw [hpc]; rfl) (by rw [hpc]; rfl) ?_ ?_
    · split
      · rfl
      · exact rescan_carry _ _ _
    · split
      · rfl
      · exact rescan_kind _ _ _
  · next hnone =>
      refine absurd hnone (slot_ne_none P.numQueues_pos ?_)
      rw [BitVec.toNat_ofNat]
      omega

theorem leaveOr_inv {pc : Pc T P.numQueues} (hcarry : (s.tx t).pc.carry = none)
    (hwork : (s.tx t).pc.kind = .working) (hcarry' : pc.carry = none) (hwork' : pc.kind = .working)
    (hempty : s.shared.shutdown = true → ∀ i, (s.shared.queues i).isEmpty = true) :
    Inv P main p O (s.put t (leaveOr t s.shared (s.tx t) pc).1
      (leaveOr t s.shared (s.tx t) pc).2) := by
  unfold leaveOr
  split
  · next hdown =>
      have h := hi.threads t
      refine hi.put (hi.core.stay rfl rfl rfl rfl rfl (.inl rfl) (by rw [hcarry]; rfl)) ?_
        ⟨.inl rfl, .inr rfl, fun _ hk => .inl hk, fun _ hk => hk, .inl rfl⟩
            ⟨fun _ => ?_, fun hf w hw => ?_⟩
      · refine ⟨h.active, nofun, nofun, nofun, nofun, fun hm hs => .inl ?_, h.finished,
          fun _ => rfl⟩
        exact (h.shut hm hs).resolve_right (by simp [hwork])
      · exact ⟨hdown, fun i => List.isEmpty_iff.1 (hempty hdown i)⟩
      · exact List.mem_cons_of_mem _ (hi.pool.closed hf w hw)
  · exact hi.stay rfl rfl rfl rfl rfl rfl rfl rfl rfl rfl rfl (by rw [hcarry, hcarry'])
      (by simp [hwork]) (by simp [hwork]) (.inr (by simp [hwork, hwork']))

theorem route_inv {k : Task T} {queue : ℤ} (hpc : (s.tx t).pc = .route k queue)
    (hlt : s.shared.nextQueue.toNat < 2 ^ 31) :
    Inv P main p O (s.put t (route s.shared (s.tx t) k queue).1
      (route s.shared (s.tx t) k queue).2) := by
  unfold route
  split
  · exact hi.stay hpc rfl rfl rfl rfl rfl rfl rfl rfl rfl rfl rfl nofun nofun (.inr ⟨rfl, nofun⟩)
  · cases hslot : slot P.numQueues s.shared.nextQueue with
    | none => exact absurd hslot (slot_ne_none P.numQueues_pos hlt)
    | some i =>
        exact hi.stay hpc rfl rfl rfl rfl rfl rfl rfl rfl rfl rfl rfl nofun nofun
          (.inr ⟨rfl, nofun⟩)

theorem push_inv {k : Task T} {i : Fin P.numQueues} (hpc : (s.tx t).pc = .push k i) :
    ∃ p', Inv P main p' O (s.put t (push s.shared (s.tx t) k i).1
        (push s.shared (s.tx t) k i).2) := by
  refine ⟨_, hi.go hpc (hi.core.push hpc) rfl rfl rfl rfl rfl (fun _ hk => hk) (fun he => ?_) nofun
    nofun (.inl rfl)⟩
  have hup := ((hi.threads t).calling (by rw [hpc]; rfl)).2
  simp [(hi.pool.drained he).1] at hup

theorem waitPrev_inv {last : Ret} (hpc : (s.tx t).pc = .out last) :
    Inv P main p O (s.put t s.shared
      { s.tx t with pc := if (s.tx t).active then .spinPrev else .out .waitPrev }) := by
  have h := hi.threads t
  have hcarry : (s.tx t).pc.carry = none := by rw [hpc]; rfl
  have hkind := kind_out hpc
  refine hi.put (hi.core.stay rfl rfl rfl rfl rfl (.inl rfl) ?_) ?_
    (.same rfl rfl rfl (fun _ hk => hk) rfl) hi.pool
  · rw [hcarry]
    dsimp only
    split <;> rfl
  · cases ha : (s.tx t).active with
    | true => exact h.call ha rfl rfl rfl hkind.1 hkind.2 rfl
    | false =>
        refine ⟨h.active, nofun, nofun, nofun, fun _ => ?_, fun _ _ => .inl ha,
          fun hm _ => h.finished hm ha, fun he => absurd (h.exited he) hkind.1⟩
        exact hi.ran_of_owner hcarry fun hm => hi.open_of_inactive (hm ▸ ha)

theorem spinPrev_inv (hpc : (s.tx t).pc = .spinPrev) (hpending : ¬0 < (s.shared.pending t).toInt) :
    Inv P main p O (s.put t s.shared { s.tx t with pc := .out .waitPrev }) := by
  have h := hi.threads t
  obtain ⟨hm, hup⟩ := h.calling (by rw [hpc]; rfl)
  have hcarry : (s.tx t).pc.carry = none := by rw [hpc]; rfl
  have hcard := hi.core.card
  have hlt := hi.core.lt
  have hint := BitVec.toInt_eq_toNat_of_lt (x := s.shared.pending main) (by omega)
  have hzero : O = ∅ := by
    rw [hm, hint, hcard] at hpending
    exact Finset.card_eq_zero.1 (by omega)
  refine hi.put (hi.core.stay rfl rfl rfl rfl rfl (.inl rfl) (by rw [hcarry]; rfl)) ?_
    (.same rfl rfl rfl (fun _ hk => hk) rfl) hi.pool
  refine ⟨h.active, nofun, nofun, nofun, fun _ => hi.ran_of_owner hcarry fun _ => hzero,
    fun _ hs => ?_, h.finished, fun he => ?_⟩
  · simp [hup] at hs
  · cases hpc ▸ h.exited he

theorem shutdown_inv {last : Ret} (hpc : (s.tx main).pc = .out last)
    {σ : Shared T P.numQueues} {x : Tx T P.numQueues}
    (hnext : (if s.shared.executor then
        some ({ s.shared with due := s.shared.returned }, { s.tx main with pc := .cas })
      else some ({ s.shared with due := s.shared.returned },
        { s.tx main with pc := .out .shutdown, active := false })) = some (σ, x)) :
    Inv P main p O (s.put main σ x) := by
  have h := hi.threads main
  have hcarry : (s.tx main).pc.carry = none := by rw [hpc]; rfl
  have hkind := kind_out hpc
  split at hnext <;> cases hnext
  · next hexec =>
      refine hi.put (hi.core.stay rfl rfl rfl rfl rfl (.inr rfl) (by rw [hcarry]; rfl)) ?_
        (.same rfl rfl rfl (fun _ hk => hk) rfl)
        (hi.pool.same rfl rfl rfl fun _ _ => rfl)
      have ha : (s.tx main).active = true := by
        cases ha : (s.tx main).active with
        | true => rfl
        | false => simp [h.finished rfl ha] at hexec
      exact h.call ha rfl rfl rfl hkind.1 hkind.2 rfl
  · next hexec =>
      refine hi.put (hi.core.stay rfl rfl rfl rfl rfl (.inr rfl) (by rw [hcarry]; rfl)) ?_
        (.same rfl rfl rfl (fun _ hk => hk) rfl)
        (hi.pool.same rfl rfl rfl fun _ _ => rfl)
      exact ⟨nofun, nofun, nofun, nofun, nofun, fun _ _ => .inl rfl,
        fun _ _ => by simpa using hexec, fun he => absurd (h.exited he) hkind.1⟩

theorem cas_inv (hpc : (s.tx t).pc = .cas) :
    Inv P main p O (s.put t { s.shared with shutdown := true }
      { s.tx t with pc := .join (if s.shared.shutdown then [] else P.workers) }) := by
  have h := hi.threads t
  obtain ⟨hm, hup⟩ := h.calling (by rw [hpc]; rfl)
  refine hi.put (hi.core.stay rfl rfl rfl rfl rfl (.inl rfl) (by rw [hpc]; rfl)) ?_
    ⟨.inr hm, .inl rfl, fun _ hk => .inl hk, fun _ hk => hk, .inl rfl⟩
    ⟨fun he => ⟨rfl, (hi.pool.drained he).2⟩, hi.pool.closed⟩
  refine ⟨h.active, nofun, nofun, fun rest hrest => ?_, nofun, fun _ _ => .inr rfl, h.finished,
    fun he => ?_⟩
  · simp only [hup, Bool.false_eq_true, if_false, Pc.join.injEq] at hrest
    exact ⟨hm, rfl, fun w hw => .inl (hrest ▸ hw)⟩
  · cases hpc ▸ h.exited he

theorem join_inv {w : T} {rest : List T} (hpc : (s.tx t).pc = .join (w :: rest))
    (hw : w ∈ s.shared.exited) :
    Inv P main p O (s.put t s.shared { s.tx t with pc := .join rest }) := by
  have h := hi.threads t
  obtain ⟨hm, hdown, hall⟩ := h.joining _ hpc
  refine hi.put (hi.core.stay rfl rfl rfl rfl rfl (.inl rfl) (by rw [hpc]; rfl)) ?_
    (.same rfl rfl rfl (fun _ hk => hk) rfl) hi.pool
  refine ⟨h.active, nofun, nofun, fun rest' hrest => ?_, nofun, fun _ _ => .inr rfl, h.finished,
    fun he => ?_⟩
  · cases hrest
    refine ⟨hm, hdown, fun u hu => ?_⟩
    rcases hall u hu with hmem | hmem
    · rcases List.mem_cons.1 hmem with rfl | hmem
      · exact .inr hw
      · exact .inl hmem
    · exact .inr hmem
  · cases hpc ▸ h.exited he

theorem joined_inv (hpc : (s.tx t).pc = .join []) :
    Inv P main p O (s.put t { s.shared with executor := false }
      { s.tx t with pc := .out .shutdown, active := false }) := by
  have h := hi.threads t
  obtain ⟨hm, hdown, hall⟩ := h.joining _ hpc
  refine hi.put (hi.core.stay rfl rfl rfl rfl rfl (.inl rfl) (by rw [hpc]; rfl)) ?_
    ⟨.inl rfl, .inl rfl, fun _ hk => .inl hk, fun _ hk => hk, .inr rfl⟩
    ⟨hi.pool.drained, fun _ w hw => (hall w hw).resolve_left List.not_mem_nil⟩
  refine ⟨nofun, nofun, nofun, nofun, nofun, fun _ _ => .inl rfl, fun _ _ => rfl, fun he => ?_⟩
  cases hpc ▸ h.exited he

end

end Steps

variable [DecidableEq T]

theorem inv_init (P : Pool T) (main : T) : Inv P main (fun _ => none) ∅ (init P main) where
  core := by
    have hat : ∀ a k, ¬At (init P main) a k := by
      intro a k h
      cases a with
      | carried t g =>
          simp only [At, init] at h
          split at h <;> cases h
      | queue i => cases h
    have hnil : ∀ k : Task T, k ∉ ([] : List (Task T)) := fun k => List.not_mem_nil
    refine ⟨fun a k => ⟨fun h => absurd h (hat a k), fun h => ?_⟩, fun _ => List.nodup_nil,
      fun k => ?_, List.nodup_nil, rfl, fun _ _ => rfl, fun j => ?_, rfl, by decide,
      fun _ _ => rfl, fun k h => absurd h (hnil k), fun k h => absurd h (hnil k),
      fun k h => absurd h (hnil k), fun k h => absurd h (hnil k)⟩
    · cases h.1
    · simp [init]
    · simp [opened]
  threads t := by
    have hpc : ((init P main).tx t).pc = if t ∈ P.workers then .pick else .out .start := rfl
    refine ⟨fun h => of_decide_eq_true h, fun h => ?_, fun h => ?_, fun rest h => ?_,
      fun h => ?_, fun _ h => absurd h Bool.false_ne_true, fun hm h => ?_,
      fun h => absurd h List.not_mem_nil⟩
    · by_contra hw
      rw [hpc, if_neg hw] at h
      cases h
    · rw [hpc] at h
      split at h <;> cases h
    · rw [hpc] at h
      split at h <;> cases h
    · rw [hpc] at h
      split at h <;> cases h
    · exact absurd hm (of_decide_eq_false h)
  pool := ⟨fun h => absurd rfl h, fun h => absurd h.symm Bool.false_ne_true⟩

section Run

variable {P : Pool T} {main : T} {s s' : Threads (Shared T P.numQueues) (Tx T P.numQueues) T}
  {p : ℕ → Option (Site T P.numQueues)} {O : Finset ℕ}

theorem eq_of_some_eq {S X : Type*} {q : S × X} {σ : S} {x : X} (h : some q = some (σ, x)) :
    σ = q.1 ∧ x = q.2 := by
  obtain rfl := Option.some.inj h
  exact ⟨rfl, rfl⟩

theorem inv_step (hi : Inv P main p O s) {l : T × Call} (hs : step P s l = some s')
    (hok : Orderly P main s l s') : ∃ p' O', Inv P main p' O' s' := by
  obtain ⟨t, c⟩ := l
  obtain ⟨σ, x, hnext, rfl⟩ := Threads.step_eq_some hs
  dsimp only at hnext ⊢
  unfold Orderly at hok
  unfold next at hnext
  split at hnext <;> try cases hnext
  · next last hpc =>
      rw [exists_comm]
      exact ⟨O, submit_inv hi hpc rfl rfl⟩
  · next last queue hpc =>
      obtain ⟨rfl, rfl⟩ := eq_of_some_eq hnext
      obtain ⟨p', h⟩ := track_inv hi hpc queue
      exact ⟨p', O, h⟩
  · next k hpc =>
      exact ⟨_, O, hi.go hpc (hi.core.inline (by rw [hpc]; rfl) rfl) rfl rfl rfl rfl rfl
        (fun _ hk => List.mem_append_left _ hk) (fun _ _ => rfl) nofun nofun (.inl rfl)⟩
  · next k queue hpc =>
      obtain rfl := ((hi.threads t).calling (by rw [hpc]; rfl)).1
      rw [hpc] at hok
      exact ⟨_, _, hi.go hpc (hi.core.count (by rw [hpc]; rfl) hok rfl) rfl rfl rfl rfl rfl
        (fun _ hk => hk) (fun _ _ => rfl) nofun nofun (.inr ⟨rfl, nofun⟩)⟩
  · next k queue hpc =>
      have h := hi.threads t
      obtain ⟨hm, hup⟩ := h.calling (by rw [hpc]; rfl)
      have hexec : s.shared.executor = true := by
        cases he : s.shared.executor with
        | true => rfl
        | false =>
            obtain ⟨w, hw⟩ := List.exists_mem_of_ne_nil _ P.workers_ne
            have := (hi.pool.drained (List.ne_nil_of_mem (hi.pool.closed he w hw))).1
            simp [hup] at this
      rw [hexec]
      exact ⟨p, O, hi.stay hpc rfl rfl rfl rfl rfl rfl rfl rfl rfl rfl rfl nofun nofun
        (.inr ⟨rfl, nofun⟩)⟩
  · next k queue hpc =>
      rw [((hi.threads t).calling (by rw [hpc]; rfl)).2] at hnext
      cases hnext
      exact ⟨p, O, hi.stay hpc rfl rfl rfl rfl rfl rfl rfl rfl rfl rfl rfl nofun nofun
        (.inr ⟨rfl, nofun⟩)⟩
  · next k queue hpc =>
      obtain ⟨rfl, rfl⟩ := eq_of_some_eq hnext
      rw [hpc] at hok
      exact ⟨p, O, route_inv hi hpc hok⟩
  · next k i hpc =>
      obtain ⟨p', h⟩ := push_inv hi hpc
      exact ⟨p', O, h⟩
  · next last tx hpc =>
      have hout : (waitTx (s.tx t) tx).active = (s.tx t).active ∧
          (waitTx (s.tx t) tx).pc.carry = none ∧ (waitTx (s.tx t) tx).pc.kind = .idle := by
        unfold waitTx
        split
        · split <;> exact ⟨rfl, rfl, rfl⟩
        · exact ⟨rfl, rfl, rfl⟩
      exact ⟨p, O, hi.stay hpc rfl rfl rfl rfl rfl rfl rfl rfl rfl hout.1 hout.2.1
        (by cases last <;> nofun) (by cases last <;> nofun) (.inl hout.2.2)⟩
  · next tx id hpc =>
      split at hnext <;> cases hnext
      · exact ⟨p, O, hi.stay hpc rfl rfl rfl rfl rfl rfl rfl rfl rfl rfl rfl nofun nofun (.inl rfl)⟩
      · rw [Threads.put_self]
        exact ⟨p, O, hi⟩
  · next last hpc => exact ⟨p, O, waitPrev_inv hi hpc⟩
  · next hpc =>
      split at hnext <;> cases hnext
      · rw [Threads.put_self]
        exact ⟨p, O, hi⟩
      · next hpending => exact ⟨p, O, spinPrev_inv hi hpc hpending⟩
  · next last hpc =>
      rw [hpc] at hok
      obtain rfl : t = main := hok
      exact ⟨p, O, shutdown_inv hi hpc hnext⟩
  · next hpc => exact ⟨p, O, cas_inv hi hpc⟩
  · next hpc => exact ⟨p, O, joined_inv hi hpc⟩
  · next w rest hpc =>
      split at hnext <;> cases hnext
      · next hw => exact ⟨p, O, join_inv hi hpc hw⟩
  · next hpc =>
      rw [hpc] at hok
      cases hslot : slot P.numQueues s.shared.nextWorkerQueue with
      | none => exact absurd hslot (slot_ne_none P.numQueues_pos hok)
      | some i =>
          exact ⟨p, O, hi.stay hpc rfl rfl rfl rfl rfl rfl rfl rfl rfl rfl rfl nofun nofun
            (.inr ⟨rfl, nofun⟩)⟩
  · next start attempt hpc =>
      obtain ⟨rfl, rfl⟩ := eq_of_some_eq hnext
      rw [hpc] at hok
      obtain ⟨p', h⟩ := scan_inv hi hpc hok
      exact ⟨p', O, h⟩
  · next start hpc =>
      split at hnext
      · next i _ =>
          obtain ⟨rfl, rfl⟩ := eq_of_some_eq hnext
          rw [exists_comm]
          exact ⟨O, pop_inv hi i (by rw [hpc]; rfl) (by rw [hpc]; rfl) rfl rfl⟩
      · cases hnext
  · next start hpc =>
      obtain ⟨rfl, rfl⟩ := eq_of_some_eq hnext
      rw [hpc] at hok
      exact ⟨p, O, leaveOr_inv hi (by rw [hpc]; rfl) (by rw [hpc]; rfl) (rescan_carry _ _ _)
        (rescan_kind _ _ _) hok⟩
  · next hpc =>
      obtain ⟨rfl, rfl⟩ := eq_of_some_eq hnext
      rw [hpc] at hok
      exact ⟨p, O, leaveOr_inv hi (by rw [hpc]; rfl) (by rw [hpc]; rfl) rfl rfl hok⟩
  · next k hpc =>
      refine ⟨_, O, hi.go hpc (hi.core.run (k := k) (by rw [hpc]; rfl) ?_) rfl rfl rfl rfl rfl
        (fun _ hk => List.mem_append_left _ hk) (fun _ _ => rfl) nofun nofun (.inr ⟨?_, nofun⟩)⟩
      all_goals
        dsimp only
        split <;> rfl
  · next k hpc =>
      exact ⟨p, O, hi.stay hpc rfl rfl rfl rfl rfl rfl rfl rfl rfl rfl rfl nofun nofun
        (.inr ⟨rfl, nofun⟩)⟩
  · next k hpc =>
      exact ⟨_, _, hi.go hpc (hi.core.retire (by rw [hpc]; rfl) rfl) rfl rfl rfl rfl rfl
        (fun _ hk => hk) (fun _ _ => rfl) nofun nofun (.inr ⟨rfl, nofun⟩)⟩

theorem inv_run (hr : Run (step P) (Orderly P main) (init P main) s) :
    ∃ p O, Inv P main p O s := by
  refine hr.induction_on (P := fun s => ∃ p O, Inv P main p O s) ⟨_, _, inv_init P main⟩ ?_
  rintro s₁ l s₂ - ⟨p, O, hi⟩ hs hok
  exact inv_step hi hs hok

/-- In an orderly run no task is executed twice; once the pool is gone every task whose call had
returned before the shutdown has been executed, and no thread counts a task; and a thread that
returns from `tm_wait_prev_tx` has seen all its tasks through. -/
theorem tasks_run_once (hr : Run (step P) (Orderly P main) (init P main) s) :
    (∀ k, s.shared.ran.count k ≤ 1) ∧
    (s.shared.executor = false → (∀ k ∈ s.shared.due, s.shared.ran.count k = 1) ∧
      ∀ t, s.shared.pending t = 0) ∧
    ∀ t, (s.tx t).pc = .out .waitPrev →
      ∀ k ∈ s.shared.issued, k.owner = t → s.shared.ran.count k = 1 := by
  obtain ⟨p, O, hi⟩ := inv_run hr
  have hcount : ∀ k ∈ s.shared.ran, s.shared.ran.count k = 1 := fun k hk =>
    List.count_eq_one_of_mem hi.core.ran_nodup hk
  refine ⟨List.nodup_iff_count_le_one.1 hi.core.ran_nodup, fun hexec => ?_, fun t hpc k hk ho => ?_⟩
  · have hO := hi.none_open (hi.pool.closed hexec)
    refine ⟨fun k hk => hcount k ?_, fun t => ?_⟩
    · obtain ⟨hissued, hfresh⟩ := hi.core.returned k (hi.core.due k hk)
      have hclosed := hi.core.opened k.id
      rw [hO] at hclosed
      refine (hi.core.ran k).2 ⟨hissued, ?_⟩
      cases hp : p k.id with
      | none => rfl
      | some a =>
          rw [hp] at hclosed hfresh
          cases a with
          | carried u g =>
              cases g with
              | fresh => exact absurd rfl (hfresh u)
              | held | ended => simp [opened] at hclosed
          | queue i => simp [opened] at hclosed
    · by_cases ht : t = main
      · have hcard := hi.core.card
        rw [hO, Finset.card_empty] at hcard
        rw [ht]
        exact BitVec.eq_of_toNat_eq hcard
      · exact hi.core.other t ht
  · exact hcount k ((hi.threads t).waited (by rw [hpc]; rfl) k hk ho)

end Run

def Pool.solo (n : ℕ) : Pool Bool :=
  ⟨n + 1, [true], Nat.succ_pos n, List.cons_ne_nil true []⟩

/-- One worker and one queue: a task is enqueued, executed and waited for, and the pool is shut
down. -/
theorem tasks_run_once_one : ∃ s,
    Run (step (.solo 0)) (Orderly (.solo 0) false) (init (.solo 0) false) s ∧
    s.shared.executor = false ∧ s.shared.due = [⟨0, false, true⟩] ∧
    s.shared.ran.count ⟨0, false, true⟩ = 1 ∧ s.shared.pending false = 0 := by
  obtain ⟨s, hr, hexec, hdue⟩ : ∃ s,
      Run (step (.solo 0)) (Orderly (.solo 0) false) (init (.solo 0) false) s ∧
      s.shared.executor = false ∧ s.shared.due = [⟨0, false, true⟩] :=
    exists_run_of_exec (.flatten [Threads.calls false [.enqueueEx 0, .tau, .tau, .tau, .tau, .tau],
      Threads.calls true [.tau, .tau, .tau, .tau, .tau],
      Threads.calls false [.waitPrev, .tau, .waitTx 1, .tau, .shutdown, .tau],
      Threads.calls true [.tau, .tau, .tau, .tau], Threads.calls false [.tau, .tau]])
      (by decide +kernel)
  obtain ⟨-, hall, -⟩ := tasks_run_once hr
  exact ⟨s, hr, hexec, hdue, (hall hexec).1 _ (by rw [hdue]; exact List.mem_cons_self),
    (hall hexec).2 false⟩

/-- Two queues and one worker: the worker sees the flag at the first queue and leaves; the task in
the second one is lost, and the wait returns since the queue is not active any more. -/
theorem task_lost : ∃ s,
    Run (step (.solo 1)) anyStep (init (.solo 1) false) s ∧
    s.shared.executor = false ∧ s.shared.due = [⟨0, false, true⟩] ∧ s.shared.ran = [] ∧
    s.shared.pending false = 1 ∧ (s.tx false).pc = .out .waitPrev :=
  exists_run_of_exec (.flatten [Threads.calls false [.enqueueEx 1, .tau, .tau, .tau, .tau, .tau,
      .shutdown, .tau],
    Threads.calls true [.tau, .tau, .tau, .tau], Threads.calls false [.tau, .tau, .waitPrev]])
    (by decide +kernel)

end Queue
