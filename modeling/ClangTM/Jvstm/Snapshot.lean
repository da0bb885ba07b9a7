import ClangTM.Jvstm.Basic
import ClangTM.Serial.Buffered
import ClangTM.Serial.Serializable

/-!
# Snapshots in JVSTM

`limit` is the first commit time that no transaction has noted: the states before it do not change
any more. If no transaction begins in the middle of a commit, the commit under way has the time
`limit`, so the bodies it prepends are not seen by anybody, and every transaction reads from the
state at its `t_rv`.
-/

namespace Jvstm

open Serial Transition

variable {A V T : Type}

def Pc.holding : Pc A V → Bool
  | .tick | .checkReads _ | .checkWrites _ | .prepend _ | .through .. | .unlock => true
  | _ => false

def Pc.ticked : Pc A V → Bool
  | .tick => false
  | pc => pc.holding

def Pc.running : Pc A V → Bool
  | .out | .beginClock | .unlock => false
  | _ => true

/-- The words whose new bodies are missing, and those that are not in memory yet. -/
def Pc.late : Pc A V → List (A × V) × List (A × V)
  | .prepend rest => (rest, rest)
  | .through w rest => (rest, w :: rest)
  | _ => ([], [])

theorem Pc.holding_of_ticked {pc : Pc A V} (h : pc.ticked = true) : pc.holding = true := by
  cases pc <;> simp_all [Pc.ticked, Pc.holding]

def Shared.limit (σ : Shared A V T) : ℕ :=
  if σ.publishing then σ.gClock else σ.gClock + 1

variable [DecidableEq A]

def Commits (σ : Shared A V T) (x : Tx A V) : Prop :=
  match x.pc with
  | .readBox a | .readHead a => x.writeSet.lookup a = none
  | .checkReads rest => σ.log σ.gClock = none ∧ ∀ e ∈ x.readSet, e ∈ rest ∨ σ.head e.1 = some e.2
  | .checkWrites _ => σ.log σ.gClock = none ∧ ∀ e ∈ x.readSet, σ.head e.1 = some e.2
  | .prepend rest => σ.log σ.gClock = some x.ops ∧ rest <:+ x.writeSet
  | .through w rest => σ.log σ.gClock = some x.ops ∧ w :: rest <:+ x.writeSet ∧ σ.boxes w.1 ≠ none
  | _ => True

structure Knows (σ : Shared A V T) (x : Tx A V) : Prop where
  bound : x.pc.running = true → x.rv < σ.limit
  reads : x.pc.running = true → ∃ rs, Buffered x.ops x.writeSet rs ∧
    ∀ r ∈ rs, ∃ n, (r.1, n) ∈ x.readSet ∧ find x.rv (σ.bodies r.1) = some (n, r.2)
  ticked : x.pc.ticked = true → x.ct = σ.gClock ∧ σ.publishing = true ∧ 0 < σ.gClock
  waits : x.pc = .tick → σ.publishing = false
  commits : Commits σ x

def late (s : Threads (Shared A V T) (Tx A V) T) : List (A × V) × List (A × V) :=
  s.shared.lock.elim ([], []) fun t => (s.tx t).pc.late

structure Inv (m₀ : A → V) (s : Threads (Shared A V T) (Tx A V) T) : Prop where
  lock : ∀ t, (s.tx t).pc.holding = true ↔ s.shared.lock = some t
  idle : s.shared.lock = none → s.shared.publishing = false
  above : ∀ c, s.shared.gClock < c → s.shared.log c = none
  shows : Shows m₀ s.shared.log s.shared.bodies ((late s).1.map Prod.fst) s.shared.gClock
  mem : writeAll s.shared.mem (late s).2 = memAt m₀ s.shared.log s.shared.gClock
  legal : ∀ c ops, 0 < c → s.shared.log c = some ops →
    Legal (memAt m₀ s.shared.log (c - 1)) ops
  ro : ∀ r ∈ s.shared.ro, r.1 < s.shared.limit ∧ Legal (memAt m₀ s.shared.log r.1) r.2 ∧
    ∀ a, lastWrite r.2 a = none
  knows : ∀ t, Knows s.shared (s.tx t)

section Frames

variable {m₀ : A → V} {s : Threads (Shared A V T) (Tx A V) T} {t : T} {σ σ' : Shared A V T}
  {x : Tx A V}

@[simp] theorem touch_bodies (σ : Shared A V T) (a : A) : (σ.touch a).bodies = σ.bodies := by
  funext b
  by_cases hb : b = a
  · subst hb
    simp [Shared.bodies, Shared.touch]
  · simp [Shared.bodies, Shared.touch, Function.update_of_ne hb]

theorem touch_boxes (σ : Shared A V T) {a b : A} (h : σ.boxes b ≠ none) :
    (σ.touch a).boxes b ≠ none := by
  dsimp only [Shared.touch]
  rw [Function.update_apply]
  split
  · nofun
  · exact h

theorem knows_out {σ : Shared A V T} : Knows σ ({} : Tx A V) :=
  ⟨nofun, nofun, nofun, nofun, trivial⟩

theorem Knows.stable (h : Knows σ x) (hx : x.pc.holding = false) (hlimit : σ.limit ≤ σ'.limit)
    (hfind : ∀ a c, c < σ.limit → find c (σ'.bodies a) = find c (σ.bodies a)) : Knows σ' x where
  bound hr := (h.bound hr).trans_le hlimit
  reads hr := by
    obtain ⟨rs, hbuf, hrs⟩ := h.reads hr
    refine ⟨rs, hbuf, fun r hrmem => ?_⟩
    obtain ⟨n, hn, hf⟩ := hrs r hrmem
    exact ⟨n, hn, (hfind _ _ (h.bound hr)).trans hf⟩
  ticked ht := by cases hpc : x.pc <;> simp_all [Pc.ticked, Pc.holding]
  waits ht := by simp [ht, Pc.holding] at hx
  commits := by
    have := h.commits
    unfold Commits at this ⊢
    cases hpc : x.pc <;> simp only [hpc, Pc.holding] at this hx ⊢ <;> first | exact this | cases hx

theorem Knows.of_bodies (h : Knows σ x) (hbodies : σ'.bodies = σ.bodies)
    (hboxes : ∀ a, σ.boxes a ≠ none → σ'.boxes a ≠ none) (hclock : σ'.gClock = σ.gClock)
    (hpub : σ'.publishing = σ.publishing) (hlog : σ'.log = σ.log) : Knows σ' x where
  bound hr := by
    rw [Shared.limit, hpub, hclock]
    exact h.bound hr
  reads hr := by
    rw [hbodies]
    exact h.reads hr
  ticked ht := by
    rw [hclock, hpub]
    exact h.ticked ht
  waits ht := hpub.trans (h.waits ht)
  commits := by
    have := h.commits
    have hhead : σ'.head = σ.head := by
      funext a
      rw [Shared.head, hbodies, Shared.head]
    unfold Commits at this ⊢
    rw [hlog, hclock, hhead]
    cases hpc : x.pc <;> simp only [hpc] at this ⊢ <;>
      first | exact this | exact ⟨this.1, this.2.1, hboxes _ this.2.2⟩

variable [DecidableEq T]

/-- A step of a thread that does not take, have or release the lock, or only checks. -/
theorem Inv.same (hi : Inv m₀ s) (hbodies : σ.bodies = s.shared.bodies)
    (hboxes : ∀ a, s.shared.boxes a ≠ none → σ.boxes a ≠ none)
    (hclock : σ.gClock = s.shared.gClock) (hpub : σ.publishing = s.shared.publishing)
    (hlog : σ.log = s.shared.log) (hmem : σ.mem = s.shared.mem) (hlock : σ.lock = s.shared.lock)
    (hro : ∀ r ∈ σ.ro, r ∈ s.shared.ro ∨ r.1 < s.shared.limit ∧
      Legal (memAt m₀ s.shared.log r.1) r.2 ∧ ∀ a, lastWrite r.2 a = none)
    (hholding : x.pc.holding = (s.tx t).pc.holding)
    (hlate : x.pc.late = (s.tx t).pc.late) (hknows : Knows σ x) :
    Inv m₀ (s.put t σ x) := by
  have hlate' : late (s.put t σ x) = late s := by
    unfold late
    rw [Threads.put_shared, hlock]
    cases s.shared.lock with
    | none => rfl
    | some u =>
        by_cases hu : u = t
        · subst hu
          simpa using hlate
        · simp [Threads.put_tx_of_ne hu]
  have hlim : σ.limit = s.shared.limit := by rw [Shared.limit, hpub, hclock, Shared.limit]
  refine ⟨?_, ?_, ?_, ?_, ?_, ?_, fun r hr => ?_, ?_⟩
  · rw [Threads.put_shared, hlock]
    exact Threads.forall_put (P := fun u (y : Tx A V) => y.pc.holding = true ↔
      s.shared.lock = some u) (by rw [hholding]; exact hi.lock t) fun u _ => hi.lock u
  · rw [Threads.put_shared, hlock, hpub]
    exact hi.idle
  · rw [Threads.put_shared, hclock, hlog]
    exact hi.above
  · rw [hlate', Threads.put_shared, hlog, hbodies, hclock]
    exact hi.shows
  · rw [hlate', Threads.put_shared, hlog, hmem, hclock]
    exact hi.mem
  · rw [Threads.put_shared, hlog]
    exact hi.legal
  · rw [Threads.put_shared] at hr
    rw [Threads.put_shared, hlog, hlim]
    rcases hro r hr with hold | hnew
    · exact hi.ro r hold
    · exact hnew
  · exact Threads.forall_put (P := fun _ (y : Tx A V) => Knows σ y) hknows fun u _ =>
      (hi.knows u).of_bodies hbodies hboxes hclock hpub hlog

omit [DecidableEq T] in
theorem Inv.not_holding (hi : Inv m₀ s) (ht : s.shared.lock = some t ∨ s.shared.lock = none)
    {u : T} (hu : u ≠ t) : (s.tx u).pc.holding = false := by
  rw [Bool.eq_false_iff, ne_eq, hi.lock u]
  rcases ht with ht | ht <;> simp [ht, hu.symm]

theorem Inv.holder (hi : Inv m₀ s) (ht : s.shared.lock = some t ∨ s.shared.lock = none)
    (hlock : σ.lock = if x.pc.holding then some t else none)
    (hidle : σ.lock = none → σ.publishing = false) (hro : σ.ro = s.shared.ro)
    (hlimit : s.shared.limit ≤ σ.limit)
    (hfind : ∀ a c, c < s.shared.limit → find c (σ.bodies a) = find c (s.shared.bodies a))
    (hbelow : ∀ c, c < s.shared.limit → memAt m₀ σ.log c = memAt m₀ s.shared.log c)
    (habove : ∀ c, σ.gClock < c → σ.log c = none)
    (hshows : Shows m₀ σ.log σ.bodies (x.pc.late.1.map Prod.fst) σ.gClock)
    (hmem : writeAll σ.mem x.pc.late.2 = memAt m₀ σ.log σ.gClock)
    (hlegal : ∀ c ops, 0 < c → σ.log c = some ops → Legal (memAt m₀ σ.log (c - 1)) ops)
    (hknows : Knows σ x) : Inv m₀ (s.put t σ x) := by
  have hlate : late (s.put t σ x) = x.pc.late := by
    unfold late
    rw [Threads.put_shared, hlock]
    cases hx : x.pc.holding with
    | true => simp
    | false => cases hpc : x.pc <;> simp_all [Pc.holding, Pc.late]
  refine ⟨?_, hidle, habove, by rwa [hlate], by rwa [hlate], hlegal, fun r hr => ?_, ?_⟩
  · rw [Threads.put_shared]
    refine Threads.forall_put (P := fun u (y : Tx A V) => y.pc.holding = true ↔ σ.lock = some u)
      ?_ fun u hu => ?_
    · rw [hlock]
      cases x.pc.holding <;> simp
    · rw [hlock, hi.not_holding ht hu]
      cases x.pc.holding <;> simp [hu.symm]
  · rw [Threads.put_shared, hro] at hr
    obtain ⟨hlt, hleg, hw⟩ := hi.ro r hr
    rw [Threads.put_shared, hbelow _ hlt]
    exact ⟨hlt.trans_le hlimit, hleg, hw⟩
  · exact Threads.forall_put (P := fun _ (y : Tx A V) => Knows σ y) hknows fun u hu =>
      (hi.knows u).stable (hi.not_holding ht hu) hlimit hfind

omit [DecidableEq T] in
theorem Inv.find_eq (hi : Inv m₀ s) {c : ℕ} (hc : c < s.shared.limit) (a : A) :
    ∃ n, find c (s.shared.bodies a) = some (n, memAt m₀ s.shared.log c a) := by
  refine hi.shows a c fun hmem => ?_
  unfold late at hmem
  cases hl : s.shared.lock with
  | none => simp [hl] at hmem
  | some u =>
      have hpub : s.shared.publishing = true := by
        refine ((hi.knows u).ticked ?_).2.1
        cases hpc : (s.tx u).pc <;> simp_all [Pc.late, Pc.ticked, Pc.holding]
      simpa [Shared.limit, hpub] using hc

omit [DecidableEq T] in
theorem Inv.legal_of_running (hi : Inv m₀ s) (hx : (s.tx t).pc.running = true) :
    Legal (memAt m₀ s.shared.log (s.tx t).rv) (s.tx t).ops := by
  obtain ⟨rs, hbuf, hrs⟩ := (hi.knows t).reads hx
  refine hbuf.legal fun r hr => ?_
  obtain ⟨n, -, hf⟩ := hrs r hr
  obtain ⟨n', hf'⟩ := hi.find_eq ((hi.knows t).bound hx) r.1
  rw [hf] at hf'
  exact (congrArg Prod.snd (Option.some.inj hf')).symm

omit [DecidableEq T] in
theorem Inv.knowsAt (hi : Inv m₀ s) {p : Pc A V} (hpc : (s.tx t).pc = p) :
    Knows s.shared { s.tx t with pc := p } := by
  subst hpc
  exact hi.knows t

omit [DecidableEq T] in
theorem Inv.holderAt (hi : Inv m₀ s) {p : Pc A V} (hpc : (s.tx t).pc = p)
    (hp : p.holding = true) : s.shared.lock = some t ∧
      Shows m₀ s.shared.log s.shared.bodies (p.late.1.map Prod.fst) s.shared.gClock ∧
      writeAll s.shared.mem p.late.2 = memAt m₀ s.shared.log s.shared.gClock := by
  subst hpc
  have hl := (hi.lock t).1 hp
  have hlate : late s = (s.tx t).pc.late := by simp [late, hl]
  rw [← hlate]
  exact ⟨hl, hi.shows, hi.mem⟩

theorem Inv.body (hi : Inv m₀ s) {p : Pc A V} (hpc : (s.tx t).pc = p) (hp : p.holding = false)
    (hx : x.pc.holding = false) (hknows : Knows s.shared x) : Inv m₀ (s.put t s.shared x) := by
  subst hpc
  have hlate : ∀ pc : Pc A V, pc.holding = false → pc.late = ([], []) := by
    intro pc hpc
    cases pc <;> simp_all [Pc.holding, Pc.late]
  exact hi.same rfl (fun _ h => h) rfl rfl rfl rfl rfl (fun _ h => .inl h) (by rw [hp, hx])
    (by rw [hlate _ hp, hlate _ hx]) hknows

end Frames

section Steps

variable [DecidableEq T] {m₀ : A → V} {s : Threads (Shared A V T) (Tx A V) T} {t : T}

section

variable (hi : Inv m₀ s)
include hi

theorem Inv.check {p : Pc A V} (hpc : (s.tx t).pc = p) (hticked : p.ticked = true)
    (hlate : p.late = ([], [])) (hrun : p.running = true) {σ : Shared A V T}
    (hbodies : σ.bodies = s.shared.bodies)
    (hboxes : ∀ a, s.shared.boxes a ≠ none → σ.boxes a ≠ none)
    (hσ : σ = { s.shared with boxes := σ.boxes }) (q : Pc A V) (hq : q.ticked = true)
    (hlate' : q.late = ([], [])) (hcommits : Commits σ { s.tx t with pc := q }) :
    Inv m₀ (s.put t σ { s.tx t with pc := q }) := by
  subst hpc
  have hne : q ≠ .tick := fun h => by simp [h, Pc.ticked] at hq
  refine hi.same hbodies hboxes (by rw [hσ]) (by rw [hσ]) (by rw [hσ]) (by rw [hσ]) (by rw [hσ])
    (fun r hr => .inl (by rwa [hσ] at hr))
    (by rw [Pc.holding_of_ticked hticked, Pc.holding_of_ticked hq])
    (by rw [hlate, hlate']) ?_
  have h := (hi.knows t).of_bodies hbodies hboxes (by rw [hσ]) (by rw [hσ]) (by rw [hσ])
  exact ⟨fun _ => h.bound hrun, fun _ => h.reads hrun, fun _ => h.ticked hticked,
    fun h => absurd h hne, hcommits⟩

theorem read_inv (hpc : (s.tx t).pc = .body) (a : A) :
    Inv m₀ (s.put t s.shared ((s.tx t).read a)) := by
  have h := hi.knowsAt hpc
  obtain ⟨rs, hbuf, hrs⟩ := h.reads rfl
  unfold Tx.read
  split
  · next v hv =>
      refine hi.body hpc rfl (by rw [hpc]; rfl) ⟨fun _ => h.bound rfl,
        fun _ => ⟨rs, hbuf.readOwn hv, hrs⟩, fun ht => ?_, fun ht => ?_, ?_⟩
      · simp [hpc, Pc.ticked, Pc.holding] at ht
      · simp [hpc] at ht
      · simp [Commits, hpc]
  · next hv =>
      exact hi.body hpc rfl rfl ⟨fun _ => h.bound rfl, fun _ => ⟨rs, hbuf, hrs⟩, nofun,
        nofun, hv⟩

theorem readBox_inv {a : A} (hpc : (s.tx t).pc = .readBox a) :
    Inv m₀ (s.put t (s.shared.touch a) { s.tx t with pc := .readHead a }) := by
  have h := (hi.knowsAt hpc).of_bodies (touch_bodies _ a) (fun b => touch_boxes _) rfl rfl rfl
  exact hi.same (touch_bodies _ a) (fun b => touch_boxes _) rfl rfl rfl rfl rfl (fun _ h => .inl h)
    (by rw [hpc]; rfl) (by rw [hpc]; rfl)
    ⟨fun _ => h.bound rfl, fun _ => h.reads rfl, nofun, nofun, h.commits⟩

theorem readHead_inv {a : A} (hpc : (s.tx t).pc = .readHead a) {x : Tx A V}
    (hx : (s.tx t).readHead a (s.shared.bodies a) = some x) : Inv m₀ (s.put t s.shared x) := by
  obtain ⟨b, hb, rfl⟩ := Option.map_eq_some_iff.1 hx
  have h := hi.knowsAt hpc
  obtain ⟨rs, hbuf, hrs⟩ := h.reads rfl
  refine hi.body hpc rfl rfl ⟨fun _ => h.bound rfl, fun _ => ⟨rs ++ [(a, b.2)],
    hbuf.read h.commits, fun r hr => ?_⟩, nofun, nofun, trivial⟩
  rcases List.mem_append.1 hr with hr | hr
  · obtain ⟨n, hn, hf⟩ := hrs r hr
    exact ⟨n, List.mem_append_left _ hn, hf⟩
  · rw [List.mem_singleton.1 hr]
    exact ⟨b.1, List.mem_append_right _ List.mem_cons_self, hb⟩

theorem commit_inv (hpc : (s.tx t).pc = .body) :
    Inv m₀ (s.put t (commit s.shared (s.tx t)).1 (commit s.shared (s.tx t)).2) := by
  have h := hi.knowsAt hpc
  obtain ⟨rs, hbuf, hrs⟩ := h.reads rfl
  unfold commit
  split
  · next hws =>
      refine hi.same rfl (fun _ h => h) rfl rfl rfl rfl rfl (fun r hr => ?_) (by rw [hpc]; rfl)
        (by rw [hpc]; rfl) knows_out
      rcases List.mem_append.1 hr with hr | hr
      · exact .inl hr
      · rw [List.mem_singleton.1 hr]
        refine .inr ⟨h.bound rfl, hi.legal_of_running (by rw [hpc]; rfl), fun a => ?_⟩
        rw [hbuf.writes, hws]
        rfl
  · exact hi.body hpc rfl rfl ⟨fun _ => h.bound rfl, fun _ => ⟨rs, hbuf, hrs⟩,
      nofun, nofun, trivial⟩

theorem lock_inv (hpc : (s.tx t).pc = .lock) (hfree : s.shared.lock = none) :
    Inv m₀ (s.put t { s.shared with lock := some t } { s.tx t with pc := .tick }) := by
  have h := hi.knowsAt hpc
  have hlate : late s = ([], []) := by simp [late, hfree]
  have hshows := hi.shows
  have hmem := hi.mem
  rw [hlate] at hshows hmem
  exact hi.holder (.inr hfree) rfl nofun rfl le_rfl (fun _ _ _ => rfl) (fun _ _ => rfl) hi.above
    hshows hmem hi.legal ⟨fun _ => h.bound rfl, fun _ => h.reads rfl, nofun,
      fun _ => hi.idle hfree, trivial⟩

theorem tick_inv (hpc : (s.tx t).pc = .tick) (hwrap : s.shared.gClock + 1 < 2 ^ 64) :
    Inv m₀ (s.put t (tick s.shared (s.tx t)).1 (tick s.shared (s.tx t)).2) := by
  have h := hi.knowsAt hpc
  obtain ⟨hl, hshows, hmem⟩ := hi.holderAt hpc rfl
  have hpub := h.waits rfl
  have hlimit : s.shared.limit = s.shared.gClock + 1 := by simp [Shared.limit, hpub]
  have hnone : s.shared.log (s.shared.gClock + 1) = none := hi.above _ (Nat.lt_succ_self _)
  unfold tick
  rw [Nat.mod_eq_of_lt hwrap]
  refine hi.holder (.inl hl) hl (fun hn => ?_) rfl hlimit.le (fun _ _ _ => rfl) (fun _ _ => rfl)
    (fun c hc => hi.above c (Nat.lt_of_succ_lt hc)) (fun a k _ => ?_) ?_ hi.legal
    ⟨fun _ => ?_, fun _ => h.reads rfl, fun _ => ⟨rfl, rfl, Nat.succ_pos _⟩, nofun,
      hnone, fun e he => .inl he⟩
  · exact absurd (hl.symm.trans hn) nofun
  · exact hshows a k nofun
  · exact hmem.trans (memAt_succ_of_none hnone).symm
  · exact hlimit ▸ h.bound rfl

end

omit [DecidableEq T] in
theorem Inv.legal_of_checked (hi : Inv m₀ s) (hrun : (s.tx t).pc.running = true)
    (hpub : s.shared.publishing = true)
    (hhead : ∀ e ∈ (s.tx t).readSet, s.shared.head e.1 = some e.2) :
    Legal (memAt m₀ s.shared.log (s.shared.gClock - 1)) (s.tx t).ops := by
  have hbound := (hi.knows t).bound hrun
  have hlimit : s.shared.limit = s.shared.gClock := by simp [Shared.limit, hpub]
  obtain ⟨rs, hbuf, hrs⟩ := (hi.knows t).reads hrun
  refine hbuf.legal fun r hr => ?_
  obtain ⟨n, hn, hf⟩ := hrs r hr
  obtain ⟨n', hf'⟩ := hi.find_eq (c := s.shared.gClock - 1) (by omega) r.1
  rw [find_of_head hf (hhead _ hn) (by omega)] at hf'
  exact (congrArg Prod.snd (Option.some.inj hf')).symm

theorem enter_inv (hi : Inv m₀ s) (hpc : (s.tx t).pc = .checkWrites []) :
    Inv m₀ (s.put t { s.shared with log := enter s.shared.log (s.tx t).ct (s.tx t).ops }
      { s.tx t with pc := .prepend (s.tx t).writeSet }) := by
  have h := hi.knowsAt hpc
  obtain ⟨rs, hbuf, hrs⟩ := h.reads rfl
  obtain ⟨hl, hshows, hmem⟩ := hi.holderAt hpc rfl
  obtain ⟨hct, hpub, hpos⟩ := h.ticked rfl
  obtain ⟨hnone, hhead⟩ := h.commits
  have hlegal := hi.legal_of_checked (by rw [hpc]; rfl) hpub hhead
  have hlimit : s.shared.limit = s.shared.gClock := by simp [Shared.limit, hpub]
  have hbelow : ∀ c, c < s.shared.gClock →
      memAt m₀ (enter s.shared.log s.shared.gClock (s.tx t).ops) c = memAt m₀ s.shared.log c :=
    fun c hc => memAt_enter_of_lt _ hc
  rw [hct]
  refine hi.holder (.inl hl) hl (fun hn => absurd (hl.symm.trans hn) nofun) rfl le_rfl
    (fun _ _ _ => rfl) (fun c hc => hbelow c (hlimit ▸ hc)) (fun c hc => ?_)
    (hshows.enter hnone fun a ha => ?_) ?_ (fun c ops hc hops => ?_)
    ⟨fun _ => h.bound rfl, fun _ => ⟨rs, hbuf, hrs⟩, fun _ => h.ticked rfl, nofun,
      enter_self _ _ _, List.suffix_rfl⟩
  · exact (enter_of_ne _ (Nat.ne_of_gt hc) _).trans (hi.above c hc)
  · rw [hbuf.writes, List.lookup_eq_none_iff]
    exact fun p hp => bne_iff_ne.2 fun heq => ha (heq ▸ List.mem_map_of_mem hp)
  · funext b
    dsimp only [Pc.late]
    rw [writeAll_of_nodup _ hbuf.nodup, memAt_pred_of_some (enter_self _ _ _) hpos, hbuf.final_eq,
      hbelow _ (by omega)]
    have hsame : memAt m₀ s.shared.log s.shared.gClock =
        memAt m₀ s.shared.log (s.shared.gClock - 1) := by
      obtain ⟨c, hc⟩ := Nat.exists_eq_succ_of_ne_zero hpos.ne'
      rw [hc] at hnone ⊢
      exact memAt_succ_of_none hnone
    rw [← hsame, ← hmem]
    rfl
  · by_cases hcc : c = s.shared.gClock
    · subst hcc
      obtain rfl := Option.some.inj ((enter_self _ _ _).symm.trans hops)
      rw [hbelow _ (by omega)]
      exact hlegal
    · replace hops := (enter_of_ne _ hcc _).symm.trans hops
      have hlt : c - 1 < s.shared.gClock := by
        by_contra hge
        rw [hi.above c (by omega)] at hops
        cases hops
      rw [hbelow _ hlt]
      exact hi.legal c ops hc hops

theorem prepend_inv (hi : Inv m₀ s) {w : A × V} {rest : List (A × V)}
    (hpc : (s.tx t).pc = .prepend (w :: rest)) :
    Inv m₀ (s.put t (prepend s.shared (s.tx t) w rest).1 (prepend s.shared (s.tx t) w rest).2) := by
  have h := hi.knowsAt hpc
  obtain ⟨rs, hbuf, hrs⟩ := h.reads rfl
  obtain ⟨hl, hshows, hmem⟩ := hi.holderAt hpc rfl
  obtain ⟨hct, hpub, hpos⟩ := h.ticked rfl
  obtain ⟨hlog, hsuffix⟩ := h.commits
  have hlimit : s.shared.limit = s.shared.gClock := by simp [Shared.limit, hpub]
  have hw : lastWrite (s.tx t).ops w.1 = some w.2 :=
    (hbuf.writes _).trans (lookup_of_mem hbuf.nodup (hsuffix.subset List.mem_cons_self))
  have hbodies : (prepend s.shared (s.tx t) w rest).1.bodies =
      Function.update s.shared.bodies w.1 ((s.shared.gClock, w.2) :: s.shared.bodies w.1) := by
    funext b
    rw [← hct]
    by_cases hb : b = w.1
    · rw [hb, Function.update_self]
      simp [Shared.bodies, prepend]
    · rw [Function.update_of_ne hb]
      simp [Shared.bodies, prepend, Function.update_of_ne hb]
  have hfind : ∀ a c, c < s.shared.limit →
      find c ((prepend s.shared (s.tx t) w rest).1.bodies a) = find c (s.shared.bodies a) := by
    intro a c hc
    rw [hbodies]
    by_cases ha : a = w.1
    · rw [ha, Function.update_self, find_cons_of_lt _ _ (hlimit ▸ hc)]
    · rw [Function.update_of_ne ha]
  refine hi.holder (.inl hl) hl (fun hn => absurd (hl.symm.trans hn) nofun) rfl le_rfl hfind
    (fun _ _ => rfl) hi.above ?_ hmem hi.legal ⟨fun _ => h.bound rfl,
      fun _ => ⟨rs, hbuf, fun r hr => ?_⟩,
      fun _ => h.ticked rfl, nofun, hlog, hsuffix, ?_⟩
  · rw [hbodies]
    exact hshows.prepend hlog hpos hi.above hw
  · obtain ⟨n, hn, hf⟩ := hrs r hr
    exact ⟨n, hn, (hfind _ _ (h.bound rfl)).trans hf⟩
  · simp [prepend]

theorem through_inv (hi : Inv m₀ s) {w : A × V} {rest : List (A × V)}
    (hpc : (s.tx t).pc = .through w rest) :
    Inv m₀ (s.put t { s.shared with mem := Function.update s.shared.mem w.1 w.2 }
      { s.tx t with pc := .prepend rest }) := by
  have h := hi.knowsAt hpc
  obtain ⟨hl, hshows, hmem⟩ := hi.holderAt hpc rfl
  obtain ⟨hlog, hsuffix, hbox⟩ := h.commits
  -- the box is there, so that the store to memory does not change the bodies
  have hbodies : Shared.bodies { s.shared with mem := Function.update s.shared.mem w.1 w.2 } =
      s.shared.bodies := by
    funext b
    by_cases hb : b = w.1
    · obtain ⟨bs, hbs⟩ := Option.ne_none_iff_exists'.1 hbox
      simp [Shared.bodies, hb, hbs]
    · simp [Shared.bodies, Function.update_of_ne hb]
  refine hi.holder (.inl hl) hl (fun hn => absurd (hl.symm.trans hn) nofun) rfl le_rfl
    (fun a c _ => by rw [hbodies]) (fun _ _ => rfl) hi.above (by rw [hbodies]; exact hshows) hmem
    hi.legal ⟨fun _ => h.bound rfl, fun _ => by rw [hbodies]; exact h.reads rfl,
      fun _ => h.ticked rfl, nofun, hlog, (List.suffix_cons w rest).trans hsuffix⟩

theorem unlock_inv (hi : Inv m₀ s) (hpc : (s.tx t).pc = .unlock) :
    Inv m₀ (s.put t { s.shared with lock := none, publishing := false } {}) := by
  obtain ⟨hl, hshows, hmem⟩ := hi.holderAt hpc rfl
  refine hi.holder (.inl hl) rfl (fun _ => rfl) rfl ?_ (fun _ _ _ => rfl) (fun _ _ => rfl) hi.above
    hshows hmem hi.legal knows_out
  unfold Shared.limit
  dsimp only
  split <;> simp

theorem inv_step (hi : Inv m₀ s) {s' : Threads (Shared A V T) (Tx A V) T} {l : T × Call A V}
    (hs : step s l = some s') (hok : Settled s l s') : Inv m₀ s' := by
  obtain ⟨t, c⟩ := l
  obtain ⟨σ, x, hnext, rfl⟩ := Threads.step_eq_some hs
  unfold Settled at hok
  dsimp only at hok hnext ⊢
  unfold next at hnext
  split at hnext <;> try cases hnext
  · next hpc => exact hi.body hpc rfl rfl ⟨nofun, nofun, nofun, nofun, trivial⟩
  · next hpc =>
      rw [hpc] at hok
      have hlimit : s.shared.limit = s.shared.gClock + 1 := if_neg (by simpa using hok)
      exact hi.body hpc rfl rfl ⟨fun _ => hlimit ▸ Nat.lt_succ_self _,
        fun _ => ⟨[], .nil, nofun⟩, nofun, nofun, trivial⟩
  · next a hpc => exact read_inv hi hpc a
  · next a hpc => exact readBox_inv hi hpc
  · next a hpc =>
      obtain ⟨x', hx, heq⟩ := Option.map_eq_some_iff.1 hnext
      cases heq
      exact readHead_inv hi hpc hx
  · next a v hpc =>
      have h := hi.knowsAt hpc
      obtain ⟨rs, hbuf, hrs⟩ := h.reads rfl
      refine hi.body hpc rfl (by rw [hpc]; rfl) ⟨fun _ => h.bound rfl,
        fun _ => ⟨rs, hbuf.write a v, hrs⟩, fun ht => ?_, fun ht => ?_, ?_⟩
      · simp [hpc, Pc.ticked, Pc.holding] at ht
      · simp [hpc] at ht
      · simp [Commits, hpc]
  · next hpc => exact hi.body hpc rfl rfl knows_out
  · next hpc =>
      obtain ⟨rfl, rfl⟩ := pair_eq hnext
      exact commit_inv hi hpc
  · next hpc =>
      split at hnext <;> cases hnext
      · next hfree => exact lock_inv hi hpc hfree
  · next hpc =>
      rw [hpc] at hok
      exact tick_inv hi hpc hok
  · next e rest hpc =>
      obtain ⟨hnone, hhead⟩ := (hi.knowsAt hpc).commits
      have hcheck := hi.check hpc rfl rfl rfl rfl
        (fun _ h => h) rfl
      split
      · next hsame =>
          refine hcheck _ rfl rfl ⟨hnone, fun e' he' => ?_⟩
          rcases hhead e' he' with hmem | hmem
          · rcases List.mem_cons.1 hmem with rfl | hmem
            · exact .inr hsame
            · exact .inl hmem
          · exact .inr hmem
      · exact hcheck _ rfl rfl trivial
  · next hpc =>
      obtain ⟨hnone, hhead⟩ := (hi.knowsAt hpc).commits
      exact hi.check hpc rfl rfl rfl rfl (fun _ h => h) rfl
        _ rfl rfl ⟨hnone, fun e he => (hhead e he).resolve_left List.not_mem_nil⟩
  · next w rest hpc =>
      obtain ⟨hnone, hhead⟩ := (hi.knowsAt hpc).commits
      have hcheck := hi.check hpc rfl rfl rfl
        (touch_bodies _ w.1) (fun b => touch_boxes _) rfl
      split
      · exact hcheck _ rfl rfl trivial
      · refine hcheck _ rfl rfl ⟨hnone, fun e he => ?_⟩
        rw [Shared.head, touch_bodies]
        exact hhead e he
  · next hpc => exact enter_inv hi hpc
  · next w rest hpc => exact prepend_inv hi hpc
  · next hpc =>
      exact hi.check hpc rfl rfl rfl rfl (fun _ h => h) rfl
        _ rfl rfl trivial
  · next w rest hpc => exact through_inv hi hpc
  · next hpc => exact unlock_inv hi hpc

theorem inv_run (hr : Run step Settled (init T m₀) s) : Inv m₀ s := by
  refine hr.induction_on ⟨fun _ => ⟨nofun, nofun⟩, fun _ => rfl, fun _ _ => rfl,
    fun a k _ => ?_, rfl,
    nofun, nofun, fun _ => knows_out⟩ fun s₁ l s₂ _ hi hs hok => inv_step hi hs hok
  refine ⟨0, congrArg (fun v => some (0, v)) (memAt_eq_of_unwritten (Nat.zero_le k) ?_).symm⟩
  exact fun _ _ _ _ hu => nomatch hu

/-- If no transaction begins in the middle of a commit, the committed transactions are serial, those
with writes in the order of their commit times and each read-only one at its `t_rv`; every running
transaction has read from the state at its `t_rv`; and memory is up to date while the lock is
free. -/
theorem boxed_snapshot_of_settled (hr : Run step Settled (init T m₀) s) :
    SerialRun m₀ (schedule s.shared.log s.shared.ro s.shared.gClock)
      (memAt m₀ s.shared.log s.shared.gClock) ∧
    (∀ t, (s.tx t).pc.running = true → (s.tx t).rv ≤ s.shared.gClock ∧
      Legal (memAt m₀ s.shared.log (s.tx t).rv) (s.tx t).ops) ∧
    (∀ r ∈ s.shared.ro, r.1 ≤ s.shared.gClock ∧ Legal (memAt m₀ s.shared.log r.1) r.2) ∧
    (s.shared.lock = none → s.shared.mem = memAt m₀ s.shared.log s.shared.gClock) := by
  have hi := inv_run hr
  have hlimit : ∀ c, c < s.shared.limit → c ≤ s.shared.gClock := fun c hc => by
    unfold Shared.limit at hc
    split at hc <;> omega
  refine ⟨schedule_serialRun _ (fun c ops hc _ => hi.legal c ops hc) fun r hr => (hi.ro r hr).2,
    fun t ht => ⟨hlimit _ ((hi.knows t).bound ht), hi.legal_of_running ht⟩,
    fun r hr => ⟨hlimit _ (hi.ro r hr).1, (hi.ro r hr).2.1⟩, fun hl => ?_⟩
  have hmem := hi.mem
  rw [show late s = ([], []) by simp [late, hl]] at hmem
  exact hmem

end Steps

/-- A transaction that writes two words and one that reads them. -/
theorem boxed_snapshot_of_settled_two : ∃ s : Threads (Shared Bool Bool Bool) (Tx Bool Bool) Bool,
    Run step Settled (init Bool fun _ => false) s ∧ s.shared.lock = none ∧
    s.shared.log 1 = some [.write true true, .write false true] ∧
    s.shared.ro = [(1, [.read true true, .read false true])] ∧
    s.shared.mem = memAt (fun _ => false) s.shared.log s.shared.gClock := by
  obtain ⟨s, hr, hlock, hlog, hro⟩ : ∃ s : Threads (Shared Bool Bool Bool) (Tx Bool Bool) Bool,
      Run step Settled (init Bool fun _ => false) s ∧ s.shared.lock = none ∧
      s.shared.log 1 = some [.write true true, .write false true] ∧
      s.shared.ro = [(1, [.read true true, .read false true])] :=
    exists_run_of_exec (.flatten [Threads.calls false [.begin, .tau, .write false true,
        .write true true, .commit, .tau, .tau, .tau, .tau, .tau, .tau, .tau, .tau, .tau, .tau, .tau,
        .tau],
      Threads.calls true [.begin, .tau, .read false, .tau, .tau, .read true, .tau, .tau, .commit]])
      (by decide +kernel)
  exact ⟨s, hr, hlock, hlog, hro, (boxed_snapshot_of_settled hr).2.2.2 hlock⟩

/-- A read-only transaction begins after the clock has been incremented and reads one word before
its new body is there and the other one after. -/
theorem torn_snapshot : ∃ s : Threads (Shared Bool Bool Bool) (Tx Bool Bool) Bool,
    Run step anyStep (init Bool fun _ => false) s ∧
    ¬Serializable (fun _ => false) ((s.shared.log 1).toList ++ s.shared.ro.map Prod.snd) := by
  obtain ⟨s, hr, hlog, hro⟩ : ∃ s : Threads (Shared Bool Bool Bool) (Tx Bool Bool) Bool,
      Run step anyStep (init Bool fun _ => false) s ∧
      s.shared.log 1 = some [.write true true, .write false true] ∧
      s.shared.ro = [(1, [.read false true, .read true false])] :=
    exists_run_of_exec (.flatten [Threads.calls false [.begin, .tau, .write false true,
        .write true true, .commit, .tau, .tau, .tau, .tau, .tau, .tau],
      Threads.calls true [.begin, .tau, .read true, .tau, .tau],
      Threads.calls false [.tau, .tau, .tau, .tau, .tau, .tau],
      Threads.calls true [.read false, .tau, .tau, .commit]])
      (by decide +kernel)
  refine ⟨s, hr, ?_⟩
  rw [hlog, hro]
  exact not_serializable_of_torn (by decide) (by decide)

end Jvstm
