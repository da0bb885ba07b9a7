import ClangTM.TsxSgl.Basic

/-!
# TSXSGL is a single global lock

A hardware transaction has read `sgl_owner` as 0, and the store of 1 ends all that have. So none
is running while a thread is past that store, and each takes effect at its `_xend` on the memory
it has read from; the transactions under the lock take effect with the store of 0.
-/

namespace TsxSgl

open Serial Transition Htm

variable {A T : Type}

/-- Between acquiring and releasing `global_tx_lock`. -/
def Tx.holding (x : Tx A) : Bool :=
  match x.pc with
  | .raise | .lower | .unlock => true
  | .body => x.saved.isNone
  | _ => false

/-- Past the store of 1 to `sgl_owner`, and not past that of 0. -/
def Tx.raised (x : Tx A) : Bool :=
  match x.pc with
  | .lower => true
  | .body => x.saved.isNone
  | _ => false

def Pc.hardware : Pc → Bool
  | .subscribe | .check | .xend => true
  | _ => false

def Pc.software : Pc → Bool
  | .subscribe | .body | .check | .xend => false
  | _ => true

variable [DecidableEq A]

/-- What is known of a hardware transaction that has read `sgl_owner`. -/
structure Subscribed (mem : Loc A → Word) (x : Tx A) (h : Htx (Loc A) Word) : Prop where
  vars : x.vars = ⟨true, 0⟩
  reads : .sglOwner ∈ h.reads
  free : mem .sglOwner = 0
  unwritten : h.writes.lookup .sglOwner = none
  buffered : ∃ rs, Buffered x.ops h.writes rs ∧
    ∀ r ∈ rs, r.1 ≠ .sglOwner ∧ r.1 ∈ h.reads ∧ mem r.1 = r.2

structure Knows (hw : Machine (Loc A) Word T) (t : T) (x : Tx A) : Prop where
  outside : x.saved = none →
    hw.htm t = none ∧ x.pc.hardware = false ∧ (x.pc = .body → x.vars.inTsx = false)
  inside : x.saved ≠ none → x.pc.software = false
  fresh : ∀ h, hw.htm t = some h → x.pc = .subscribe → h = {} ∧ x.ops = []
  running : ∀ h, hw.htm t = some h → x.pc ≠ .subscribe → Subscribed hw.mem x h

/-- What the transaction under the lock has done since its store to `sgl_owner`. -/
def opened (s : Threads (Shared A T) (Tx A) T) : Option (Trace (Loc A) Word) :=
  s.shared.globalTxLock.bind fun t => if (s.tx t).raised then some (s.tx t).ops else none

structure Inv (m₀ : A → Word) (s : Threads (Shared A T) (Tx A) T) : Prop where
  apart : s.shared.hw.Apart
  knows : ∀ t, Knows s.shared.hw t (s.tx t)
  lock : ∀ t, (s.tx t).holding = true ↔ s.shared.globalTxLock = some t
  owner : s.shared.hw.mem .sglOwner = if (opened s).isSome then 1 else 0
  serial : ∃ m, SerialRun (start m₀) s.shared.log m ∧ Legal m ((opened s).getD []) ∧
    ∀ l, l ≠ .sglOwner → s.shared.hw.mem l = final m ((opened s).getD []) l

variable {m₀ : A → Word} {s : Threads (Shared A T) (Tx A) T} {t : T} {σ : Shared A T} {x : Tx A}
  {h : Htx (Loc A) Word}

section Threads

variable [DecidableEq T]

omit [DecidableEq T] in
theorem Knows.stable {hw hw' : Machine (Loc A) Word T} {u : T} (hk : Knows hw u x)
    (hs : Machine.Step t hw hw') (hu : u ≠ t) : Knows hw' u x where
  outside hx := ⟨hs.htm_eq_none hu (hk.outside hx).1, (hk.outside hx).2⟩
  inside := hk.inside
  fresh h hh := hk.fresh h (hs.others u h hu hh).1
  running h hh hpc := by
    obtain ⟨hh, hmem⟩ := hs.others u h hu hh
    have hrun := hk.running h hh hpc
    obtain ⟨rs, hbuf, hrs⟩ := hrun.buffered
    exact ⟨hrun.vars, hrun.reads, by rw [hmem _ hrun.reads, hrun.free], hrun.unwritten, rs, hbuf,
      fun r hr => ⟨(hrs r hr).1, (hrs r hr).2.1, by rw [hmem _ (hrs r hr).2.1, (hrs r hr).2.2]⟩⟩

theorem Inv.knows_put (hi : Inv m₀ s) (hs : Machine.Step t s.shared.hw σ.hw)
    (hk : Knows σ.hw t x) (u : T) : Knows (s.put t σ x).shared.hw u ((s.put t σ x).tx u) := by
  by_cases hu : u = t
  · subst hu
    rw [Threads.put_tx_self]
    exact hk
  · rw [Threads.put_tx_of_ne hu]
    exact (hi.knows u).stable hs hu

theorem Inv.lock_put (hi : Inv m₀ s) (hlock : σ.globalTxLock = s.shared.globalTxLock)
    (hhold : x.holding = (s.tx t).holding) (u : T) :
    ((s.put t σ x).tx u).holding = true ↔ (s.put t σ x).shared.globalTxLock = some u := by
  rw [Threads.put_shared, hlock, ← hi.lock u]
  by_cases hu : u = t
  · subst hu
    rw [Threads.put_tx_self, hhold]
  · rw [Threads.put_tx_of_ne hu]

/-- A step that leaves memory, the lock, the history and the transaction under the lock. -/
theorem Inv.quiet (hi : Inv m₀ s) (hs : Machine.Step t s.shared.hw σ.hw) (hk : Knows σ.hw t x)
    (hmem : σ.hw.mem = s.shared.hw.mem) (hlock : σ.globalTxLock = s.shared.globalTxLock)
    (hlog : σ.log = s.shared.log) (hhold : x.holding = (s.tx t).holding)
    (hraised : x.raised = (s.tx t).raised)
    (hops : x.raised = true → x.ops = (s.tx t).ops) : Inv m₀ (s.put t σ x) := by
  have hopen : opened (s.put t σ x) = opened s := by
    unfold opened
    rw [Threads.put_shared, hlock]
    refine congrArg _ (funext fun u => ?_)
    by_cases hu : u = t
    · subst hu
      rw [Threads.put_tx_self, ← hraised]
      split
      · next hx => rw [hops hx]
      · rfl
    · rw [Threads.put_tx_of_ne hu]
  refine ⟨hs.apart hi.apart, hi.knows_put hs hk, hi.lock_put hlock hhold, ?_, ?_⟩
  · rw [hopen, Threads.put_shared, hmem]
    exact hi.owner
  · rw [hopen, Threads.put_shared, hmem, hlog]
    exact hi.serial

omit [DecidableEq T] in
/-- While `sgl_owner` is 0, memory is what the transactions so far have left. -/
theorem Inv.closed (hi : Inv m₀ s) (hfree : s.shared.hw.mem .sglOwner = 0) :
    opened s = none ∧ ∃ m, SerialRun (start m₀) s.shared.log m ∧
      ∀ l, l ≠ .sglOwner → s.shared.hw.mem l = m l := by
  have hnone : opened s = none := by
    have howner := hi.owner
    rw [hfree] at howner
    cases hopen : opened s with
    | none => rfl
    | some ops => simp [hopen] at howner
  obtain ⟨m, hrun, -, hmem⟩ := hi.serial
  rw [hnone] at hmem
  exact ⟨hnone, m, hrun, hmem⟩

omit [DecidableEq A] [DecidableEq T] in
theorem Tx.not_holding (hsaved : x.saved ≠ none) (hpc : x.pc.software = false) :
    x.holding = false ∧ x.raised = false := by
  unfold Tx.holding Tx.raised
  revert hpc
  cases x.pc <;> simp [Pc.software, Option.isSome_iff_ne_none, hsaved]

theorem Inv.hardware {hw : Machine (Loc A) Word T} (hi : Inv m₀ s)
    (hsaved : (s.tx t).saved ≠ none) (hs : Machine.Step t s.shared.hw hw)
    (hmem : hw.mem = s.shared.hw.mem) (hx : x.saved ≠ none) (hpc : x.pc.software = false)
    (hfresh : ∀ h, hw.htm t = some h → x.pc = .subscribe → h = {} ∧ x.ops = [])
    (hrun : ∀ h, hw.htm t = some h → x.pc ≠ .subscribe → Subscribed hw.mem x h) :
    Inv m₀ (s.put t { s.shared with hw } x) := by
  obtain ⟨hhold, hraised⟩ := Tx.not_holding hsaved ((hi.knows t).inside hsaved)
  obtain ⟨hhold', hraised'⟩ := Tx.not_holding hx hpc
  exact hi.quiet hs ⟨fun h => absurd h hx, fun _ => hpc, hfresh, hrun⟩ hmem rfl rfl
    (hhold'.trans hhold.symm) (hraised'.trans hraised.symm) (fun h => by simp [hraised'] at h)

section Hardware

variable (hi : Inv m₀ s) (hh : s.shared.hw.htm t = some h) (hsaved : (s.tx t).saved ≠ none)

include hi hsaved

theorem xabort_inv : Inv m₀ (s.put t { s.shared with hw := s.shared.hw.xabort t } (s.tx t)) := by
  refine hi.hardware hsaved Machine.xabort_step rfl hsaved ((hi.knows t).inside hsaved)
    (fun h hh => ?_) fun h hh => ?_
  all_goals
    rw [Machine.xabort_htm_self] at hh
    cases hh

include hh

theorem subscribe_inv (hpc : (s.tx t).pc = .subscribe) (hfree : s.shared.hw.value .sglOwner h = 0) :
    Inv m₀ (s.put t { s.shared with hw := s.shared.hw.xload t .sglOwner h }
      { s.tx t with pc := .body, vars := ⟨true, s.shared.hw.value .sglOwner h⟩ }) := by
  obtain ⟨rfl, hops⟩ := (hi.knows t).fresh h hh hpc
  refine hi.hardware hsaved (Machine.xload_step hi.apart hh) rfl hsaved rfl
    (fun _ _ hpc => by cases hpc) fun h' hh' _ => ?_
  rw [Machine.xload_htm_self] at hh'
  cases hh'
  refine ⟨by rw [hfree], List.mem_cons_self, hfree, rfl, [], ?_, fun r hr => by cases hr⟩
  show Buffered (s.tx t).ops _ _
  rw [hops]
  exact .nil

theorem hwRead_inv (hpc : (s.tx t).pc = .body) (a : A) :
    Inv m₀ (s.put t { s.shared with hw := s.shared.hw.xload t (.cell a) h }
      ((s.tx t).note (.read (.cell a) (s.shared.hw.value (.cell a) h)))) := by
  have hrun := (hi.knows t).running h hh (by simp [hpc])
  refine hi.hardware hsaved (Machine.xload_step hi.apart hh) rfl hsaved
    ((hi.knows t).inside hsaved) (fun _ _ h => absurd (hpc.symm.trans h) (by simp))
        fun h' hh' _ => ?_
  rw [Machine.xload_htm_self] at hh'
  cases hh'
  obtain ⟨rs, hbuf, hrs⟩ := hrun.buffered
  have hrs' : ∀ r ∈ rs, r.1 ≠ .sglOwner ∧ r.1 ∈ .cell a :: h.reads ∧ s.shared.hw.mem r.1 = r.2 :=
    fun r hr => ⟨(hrs r hr).1, List.mem_cons_of_mem _ (hrs r hr).2.1, (hrs r hr).2.2⟩
  refine ⟨hrun.vars, List.mem_cons_of_mem _ hrun.reads, hrun.free, hrun.unwritten, ?_⟩
  cases hw : h.writes.lookup (.cell a) with
  | some v =>
      have hv : s.shared.hw.value (.cell a) h = v := by simp [Machine.value, hw]
      rw [hv]
      exact ⟨rs, hbuf.readOwn hw, hrs'⟩
  | none =>
      have hv : s.shared.hw.value (.cell a) h = s.shared.hw.mem (.cell a) := by
        simp [Machine.value, hw]
      rw [hv]
      refine ⟨_, hbuf.read hw, fun r hr => ?_⟩
      rcases List.mem_append.1 hr with hr | hr
      · exact hrs' r hr
      · rw [List.mem_singleton.1 hr]
        exact ⟨by simp, List.mem_cons_self, rfl⟩

theorem hwWrite_inv (hpc : (s.tx t).pc = .body) (a : A) (v : Word) :
    Inv m₀ (s.put t { s.shared with hw := s.shared.hw.xstore t (.cell a) v h }
      ((s.tx t).note (.write (.cell a) v))) := by
  have hrun := (hi.knows t).running h hh (by simp [hpc])
  refine hi.hardware hsaved (Machine.xstore_step hi.apart hh) rfl hsaved
    ((hi.knows t).inside hsaved) (fun _ _ h => absurd (hpc.symm.trans h) (by simp))
        fun h' hh' _ => ?_
  rw [Machine.xstore_htm_self] at hh'
  cases hh'
  obtain ⟨rs, hbuf, hrs⟩ := hrun.buffered
  exact ⟨hrun.vars, hrun.reads, hrun.free, by simp [hrun.unwritten], rs, hbuf.write _ _, hrs⟩

theorem hwMove_inv {hw : Machine (Loc A) Word T} {p : Pc} (hpc : (s.tx t).pc ≠ .subscribe)
    (hs : Machine.Step t s.shared.hw hw) (hmem : hw.mem = s.shared.hw.mem)
    (hsame : ∀ h', hw.htm t = some h' → h'.writes = h.writes ∧ ∀ l ∈ h.reads, l ∈ h'.reads)
    (hp : p.software = false) (hne : p ≠ .subscribe) :
    Inv m₀ (s.put t { s.shared with hw } { s.tx t with pc := p }) := by
  have hrun := (hi.knows t).running h hh hpc
  refine hi.hardware hsaved hs hmem hsaved hp (fun _ _ h => absurd h hne) fun h' hh' _ => ?_
  obtain ⟨hwrites, hreads⟩ := hsame h' hh'
  obtain ⟨rs, hbuf, hrs⟩ := hrun.buffered
  rw [hmem]
  exact ⟨hrun.vars, hreads _ hrun.reads, hrun.free, hwrites ▸ hrun.unwritten, rs, hwrites ▸ hbuf,
    fun r hr => ⟨(hrs r hr).1, hreads _ (hrs r hr).2.1, (hrs r hr).2.2⟩⟩

theorem xend_inv (hpc : (s.tx t).pc = .xend) :
    Inv m₀ (s.put t
      { s.shared with hw := s.shared.hw.xend t h, log := s.shared.log ++ [(s.tx t).ops] }
      { vars := (s.tx t).vars }) := by
  have hrun := (hi.knows t).running h hh (by simp [hpc])
  obtain ⟨rs, hbuf, hrs⟩ := hrun.buffered
  obtain ⟨hnone, m, hserial, hmem⟩ := hi.closed hrun.free
  have hs := Machine.xend_step hi.apart hh
  have hfree : (s.shared.hw.xend t h).mem .sglOwner = 0 := by
    simp [Machine.xend, Machine.value, hrun.unwritten, hrun.free]
  have hhtm : (s.shared.hw.xend t h).htm t = none := Machine.xend_htm_self
  obtain ⟨hhold, -⟩ := Tx.not_holding hsaved ((hi.knows t).inside hsaved)
  have hopen : opened (s.put t
      { s.shared with hw := s.shared.hw.xend t h, log := s.shared.log ++ [(s.tx t).ops] }
      { vars := (s.tx t).vars }) = none := by
    have hlock : ∀ u, s.shared.globalTxLock = some u → u ≠ t := by
      rintro u hu rfl
      rw [(hi.lock u).2 hu] at hhold
      cases hhold
    unfold opened at hnone ⊢
    cases hl : s.shared.globalTxLock with
    | none => simp [hl]
    | some u =>
        rw [hl] at hnone
        simpa [hl, Threads.put_tx_of_ne (hlock u hl)] using hnone
  refine ⟨hs.apart hi.apart, hi.knows_put hs ⟨fun _ => ⟨hhtm, rfl, fun h => by cases h⟩,
    fun h => absurd rfl h, fun h hh => ?_, fun h hh => ?_⟩, hi.lock_put rfl hhold.symm, ?_, ?_⟩
  · rw [hhtm] at hh
    cases hh
  · rw [hhtm] at hh
    cases hh
  · rw [hopen]
    exact hfree
  · rw [hopen]
    refine ⟨final m (s.tx t).ops, serialRun_append hserial ⟨?_, rfl⟩, trivial, fun l hl => ?_⟩
    · exact hbuf.legal fun r hr => by rw [← hmem r.1 (hrs r hr).1, (hrs r hr).2.2]
    · show s.shared.hw.value l h = _
      rw [Option.getD_none, final_nil, hbuf.final_eq, Machine.value, hmem l hl]

end Hardware

omit [DecidableEq T] in
theorem Knows.ofSoftware {hw : Machine (Loc A) Word T} (hhtm : hw.htm t = none)
    (hsaved : x.saved = none) (hpc : x.pc.hardware = false)
    (hbody : x.pc = .body → x.vars.inTsx = false) : Knows hw t x where
  outside _ := ⟨hhtm, hpc, hbody⟩
  inside h := absurd hsaved h
  fresh h hh := by
    rw [hhtm] at hh
    cases hh
  running h hh := by
    rw [hhtm] at hh
    cases hh

omit [DecidableEq T] in
theorem Inv.raised (hi : Inv m₀ s) (hraised : (s.tx t).raised = true) :
    (s.tx t).holding = true ∧ s.shared.globalTxLock = some t ∧ s.shared.hw.mem .sglOwner = 1 ∧
      ∃ m, SerialRun (start m₀) s.shared.log m ∧ Legal m (s.tx t).ops ∧
        ∀ l, l ≠ .sglOwner → s.shared.hw.mem l = final m (s.tx t).ops l := by
  have hhold : (s.tx t).holding = true := by
    revert hraised
    unfold Tx.raised Tx.holding
    cases (s.tx t).pc <;> simp
  have hlock := (hi.lock t).1 hhold
  have hopen : opened s = some (s.tx t).ops := by simp [opened, hlock, hraised]
  have howner := hi.owner
  obtain ⟨m, hrun, hlegal, hmem⟩ := hi.serial
  rw [hopen] at howner hlegal hmem
  exact ⟨hhold, hlock, howner, m, hrun, hlegal, hmem⟩

section Software

variable (hi : Inv m₀ s) (hsaved : (s.tx t).saved = none)

include hi hsaved

theorem Inv.software {hw : Machine (Loc A) Word T} (hs : Machine.Step t s.shared.hw hw)
    (hmem : hw.mem = s.shared.hw.mem) (hhtm : hw.htm t = s.shared.hw.htm t)
    (hhold : (s.tx t).holding = false) (hraised : (s.tx t).raised = false) (hx : x.saved = none)
    (hpc : x.pc = .xbegin ∨ x.pc = .lock ∨ x.pc = .wait) :
    Inv m₀ (s.put t { s.shared with hw } x) := by
  have hout := ((hi.knows t).outside hsaved).1
  have hx' : x.holding = false ∧ x.raised = false ∧ x.pc.hardware = false ∧ x.pc ≠ .body := by
    unfold Tx.holding Tx.raised
    rcases hpc with h | h | h <;> simp [h, Pc.hardware]
  exact hi.quiet hs (.ofSoftware (hhtm.trans hout) hx hx'.2.2.1 fun h => absurd h hx'.2.2.2) hmem
    rfl rfl (hx'.1.trans hhold.symm) (hx'.2.1.trans hraised.symm) fun h => by simp [hx'.2.1] at h

theorem Inv.holder (hlock : s.shared.globalTxLock = some t) (hlock' : σ.globalTxLock = some t)
    (hhold : (s.tx t).holding = true) (hx : x.holding = true)
    (hs : Machine.Step t s.shared.hw σ.hw) (hhtm : σ.hw.htm t = s.shared.hw.htm t)
    (hxs : x.saved = none) (hbody : x.pc = .body → x.vars.inTsx = false)
    (howner : σ.hw.mem .sglOwner = if x.raised then 1 else 0)
    (hserial : ∃ m, SerialRun (start m₀) σ.log m ∧ Legal m (if x.raised then x.ops else []) ∧
      ∀ l, l ≠ .sglOwner → σ.hw.mem l = final m (if x.raised then x.ops else []) l) :
    Inv m₀ (s.put t σ x) := by
  have hopen : opened (s.put t σ x) = if x.raised then some x.ops else none := by
    simp [opened, hlock']
  have hpc : x.pc.hardware = false := by
    unfold Tx.holding at hx
    revert hx
    cases x.pc <;> simp [Pc.hardware]
  refine ⟨hs.apart hi.apart,
    hi.knows_put hs (.ofSoftware (hhtm.trans ((hi.knows t).outside hsaved).1) hxs hpc hbody),
    hi.lock_put (hlock'.trans hlock.symm) (hx.trans hhold.symm), ?_, ?_⟩
  · rw [hopen]
    split
    all_goals simp_all
  · rw [hopen]
    split
    all_goals simp_all

theorem wait_inv (hpc : (s.tx t).pc = .wait) :
    Inv m₀ (s.put t { s.shared with hw := s.shared.hw.load t .sglOwner }
      (if s.shared.hw.mem .sglOwner ≠ 0 then s.tx t else (s.tx t).tryAgain)) := by
  refine hi.software hsaved (Machine.load_step hi.apart) rfl Machine.load_htm_self
    (by simp [Tx.holding, hpc]) (by simp [Tx.raised, hpc]) ?_ ?_
  · split
    · exact hsaved
    · exact hsaved
  · split
    · exact .inr (.inr hpc)
    · unfold Tx.tryAgain
      dsimp only
      split
      · exact .inl rfl
      · exact .inr (.inl rfl)

theorem lock_inv (hpc : (s.tx t).pc = .lock) (hlock : s.shared.globalTxLock = none) :
    Inv m₀ (s.put t { s.shared with globalTxLock := some t } { s.tx t with pc := .raise }) := by
  have hnone : ∀ u, (s.tx u).holding = false := by
    intro u
    cases hu : (s.tx u).holding with
    | false => rfl
    | true =>
        rw [(hi.lock u).1 hu] at hlock
        cases hlock
  have hopen : opened s = none := by simp [opened, hlock]
  have hopen' : opened (s.put t { s.shared with globalTxLock := some t }
      { s.tx t with pc := .raise }) = none := by
    simp [opened, Tx.raised]
  have hs : Machine.Step t s.shared.hw s.shared.hw := .refl hi.apart
  refine ⟨hi.apart, hi.knows_put hs (.ofSoftware ((hi.knows t).outside hsaved).1 hsaved rfl
    fun h => by cases h), fun u => ?_, ?_, ?_⟩
  · by_cases hu : u = t
    · subst hu
      simp [Tx.holding]
    · rw [Threads.put_tx_of_ne hu, hnone u]
      simpa using Ne.symm hu
  · rw [hopen', ← hopen]
    exact hi.owner
  · rw [hopen', ← hopen]
    exact hi.serial

theorem raise_inv (hpc : (s.tx t).pc = .raise) :
    Inv m₀ (s.put t { s.shared with hw := s.shared.hw.store t .sglOwner 1 }
      { s.tx t with pc := .body, vars := { (s.tx t).vars with inTsx := false }, ops := [] }) := by
  have hhold : (s.tx t).holding = true := by simp [Tx.holding, hpc]
  have hlock := (hi.lock t).1 hhold
  have hopen : opened s = none := by simp [opened, hlock, Tx.raised, hpc]
  obtain ⟨m, hrun, -, hmem⟩ := hi.serial
  rw [hopen] at hmem
  refine hi.holder hsaved hlock hlock hhold (by simp [Tx.holding, hsaved])
    (Machine.store_step hi.apart) Machine.store_htm_self hsaved (fun _ => rfl) ?_
    ⟨m, hrun, by simp [Legal], fun l hl => ?_⟩
  · simp [Tx.raised, hsaved, Machine.store]
  · simpa [Machine.store, hl] using hmem l hl

theorem swRead_inv (hpc : (s.tx t).pc = .body) (a : A) :
    Inv m₀ (s.put t { s.shared with hw := s.shared.hw.load t (.cell a) }
      ((s.tx t).note (.read (.cell a) (s.shared.hw.mem (.cell a))))) := by
  have hraised : (s.tx t).raised = true := by simp [Tx.raised, hpc, hsaved]
  obtain ⟨hhold, hlock, howner, m, hrun, hlegal, hmem⟩ := hi.raised hraised
  have hraised' : ((s.tx t).note (.read (.cell a) (s.shared.hw.mem (.cell a)))).raised = true :=
    hraised
  refine hi.holder hsaved hlock hlock hhold hhold (Machine.load_step hi.apart)
    Machine.load_htm_self hsaved ((hi.knows t).outside hsaved).2.2 ?_ ⟨m, hrun, ?_⟩
  · rw [hraised']
    exact howner
  · rw [hraised']
    exact ⟨⟨(hmem _ (by simp)).symm, hlegal⟩, hmem⟩

theorem swWrite_inv (hpc : (s.tx t).pc = .body) (a : A) (v : Word) :
    Inv m₀ (s.put t { s.shared with hw := s.shared.hw.store t (.cell a) v }
      ((s.tx t).note (.write (.cell a) v))) := by
  have hraised : (s.tx t).raised = true := by simp [Tx.raised, hpc, hsaved]
  obtain ⟨hhold, hlock, howner, m, hrun, hlegal, hmem⟩ := hi.raised hraised
  have hraised' : ((s.tx t).note (.write (.cell a) v)).raised = true := hraised
  refine hi.holder hsaved hlock hlock hhold hhold (Machine.store_step hi.apart)
    Machine.store_htm_self hsaved ((hi.knows t).outside hsaved).2.2 ?_ ⟨m, hrun, ?_⟩
  · rw [hraised']
    simpa [Machine.store] using howner
  · rw [hraised']
    refine ⟨hlegal, fun l hl => ?_⟩
    show Function.update s.shared.hw.mem (.cell a) v l =
      Function.update (final m (s.tx t).ops) (.cell a) v l
    by_cases ha : l = .cell a
    · subst ha
      rw [Function.update_self, Function.update_self]
    · rw [Function.update_of_ne ha, Function.update_of_ne ha]
      exact hmem l hl

theorem lower_inv (hpc : (s.tx t).pc = .lower) :
    Inv m₀ (s.put t
      { s.shared with
        hw := s.shared.hw.store t .sglOwner 0
        log := s.shared.log ++ [(s.tx t).ops] }
      { s.tx t with pc := .unlock }) := by
  have hraised : (s.tx t).raised = true := by simp [Tx.raised, hpc]
  obtain ⟨hhold, hlock, -, m, hrun, hlegal, hmem⟩ := hi.raised hraised
  refine hi.holder hsaved hlock hlock hhold rfl (Machine.store_step hi.apart)
    Machine.store_htm_self hsaved (fun h => by cases h) ?_
    ⟨final m (s.tx t).ops, serialRun_append hrun ⟨hlegal, rfl⟩, trivial, fun l hl => ?_⟩
  · simp [Tx.raised, Machine.store]
  · simpa [Machine.store, Tx.raised, hl] using hmem l hl

theorem unlock_inv (hpc : (s.tx t).pc = .unlock) :
    Inv m₀ (s.put t { s.shared with globalTxLock := none } { vars := (s.tx t).vars }) := by
  have hlock := (hi.lock t).1 (by simp [Tx.holding, hpc])
  have hopen : opened s = none := by simp [opened, hlock, Tx.raised, hpc]
  have hopen' : opened (s.put t { s.shared with globalTxLock := none }
      { vars := (s.tx t).vars }) = none := by
    simp [opened]
  have hs : Machine.Step t s.shared.hw s.shared.hw := .refl hi.apart
  refine ⟨hi.apart, hi.knows_put hs (.ofSoftware ((hi.knows t).outside hsaved).1 rfl rfl
    fun h => by cases h), fun u => ?_, ?_, ?_⟩
  · by_cases hu : u = t
    · subst hu
      simp [Tx.holding]
    · have hne := (hi.lock u).not.2 (by rw [hlock]; simpa using Ne.symm hu)
      rw [Threads.put_tx_of_ne hu]
      simpa using hne
  · rw [hopen', ← hopen]
    exact hi.owner
  · rw [hopen', ← hopen]
    exact hi.serial

end Software

variable {c : Call A} {q : Shared A T × Tx A} {rtm : Bool}

theorem hwNext_inv (hi : Inv m₀ s) (hh : s.shared.hw.htm t = some h)
    (hsaved : (s.tx t).saved ≠ none) (hnext : hwNext t s.shared (s.tx t) h c = some q) :
    Inv m₀ (s.put t q.1 q.2) := by
  unfold hwNext at hnext
  split at hnext <;> try cases hnext
  · next hpc =>
      dsimp only at hnext
      split at hnext <;> cases hnext
      · exact xabort_inv hi hsaved
      · next hfree => exact subscribe_inv hi hh hsaved hpc (not_not.1 hfree)
  · next a hpc => exact hwRead_inv hi hh hsaved hpc a
  · next a v hpc => exact hwWrite_inv hi hh hsaved hpc a v
  · next hpc =>
      have hrun := (hi.knows t).running h hh (by simp [hpc])
      have hend : (s.tx t).tmEnd = { s.tx t with pc := .check } := by simp [Tx.tmEnd, hrun.vars]
      rw [hend]
      refine hwMove_inv hi hh hsaved (by simp [hpc]) (.refl hi.apart) rfl (fun h' hh' => ?_) rfl
        (by simp)
      rw [hh] at hh'
      cases hh'
      exact ⟨rfl, fun _ hl => hl⟩
  · next hpc =>
      split at hnext <;> cases hnext
      · exact xabort_inv hi hsaved
      · refine hwMove_inv hi hh hsaved (by simp [hpc]) (Machine.xload_step hi.apart hh) rfl
          (fun h' hh' => ?_) rfl (by simp)
        rw [Machine.xload_htm_self] at hh'
        cases hh'
        exact ⟨rfl, fun _ hl => List.mem_cons_of_mem _ hl⟩
  · next hpc => exact xend_inv hi hh hsaved hpc

theorem swNext_inv (hi : Inv m₀ s) (hsaved : (s.tx t).saved = none)
    (hnext : swNext t s.shared (s.tx t) rtm c = some q) : Inv m₀ (s.put t q.1 q.2) := by
  unfold swNext at hnext
  split at hnext <;> try cases hnext
  · next hpc =>
      refine hi.software hsaved (.refl hi.apart) rfl rfl (by simp [Tx.holding, hpc])
        (by simp [Tx.raised, hpc]) hsaved ?_
      cases rtm
      · exact .inr (.inl rfl)
      · exact .inl rfl
  · next hpc =>
      refine hi.quiet Machine.xbegin_step ⟨fun h => (by cases h), fun _ => rfl, fun h hh _ => ?_,
        fun _ _ h => absurd rfl h⟩ rfl rfl rfl (by simp [Tx.holding, hpc])
        (by simp [Tx.raised, hpc]) fun h => (by cases h)
      rw [Machine.xbegin_htm_self] at hh
      exact ⟨(Option.some.inj hh).symm, rfl⟩
  · next hpc => exact wait_inv hi hsaved hpc
  · next hpc =>
      split at hnext <;> cases hnext
      · next hlock => exact lock_inv hi hsaved hpc hlock
      · exact hi.software hsaved (.refl hi.apart) rfl rfl (by simp [Tx.holding, hpc])
          (by simp [Tx.raised, hpc]) hsaved (.inr (.inl hpc))
  · next hpc => exact raise_inv hi hsaved hpc
  · next a hpc => exact swRead_inv hi hsaved hpc a
  · next a v hpc => exact swWrite_inv hi hsaved hpc a v
  · next hpc =>
      obtain ⟨hhtm, -, hvars⟩ := (hi.knows t).outside hsaved
      have hend : (s.tx t).tmEnd = { s.tx t with pc := .lower } := by simp [Tx.tmEnd, hvars hpc]
      rw [hend]
      exact hi.quiet (.refl hi.apart) (.ofSoftware hhtm hsaved rfl fun h => by cases h) rfl rfl rfl
        (by simp [Tx.holding, hpc, hsaved]) (by simp [Tx.raised, hpc, hsaved]) fun _ => rfl
  · next hpc => exact lower_inv hi hsaved hpc
  · next hpc => exact unlock_inv hi hsaved hpc

theorem resume_inv (hi : Inv m₀ s) (hsaved : (s.tx t).saved ≠ none) (vars : Vars)
    (status : BitVec 32) :
    Inv m₀ (s.put t { s.shared with hw := s.shared.hw.xabort t }
        ((s.tx t).resume vars status)) := by
  obtain ⟨hhold, hraised⟩ := Tx.not_holding hsaved ((hi.knows t).inside hsaved)
  have hx : ((s.tx t).resume vars status).saved = none ∧
      (((s.tx t).resume vars status).pc = .xbegin ∨ ((s.tx t).resume vars status).pc = .lock ∨
        ((s.tx t).resume vars status).pc = .wait) := by
    unfold Tx.resume Tx.tryAgain
    dsimp only
    split
    · exact ⟨rfl, .inr (.inr rfl)⟩
    · split
      · exact ⟨rfl, .inr (.inl rfl)⟩
      · refine ⟨rfl, ?_⟩
        split
        · exact .inl rfl
        · exact .inr (.inl rfl)
  have hx' : ((s.tx t).resume vars status).holding = false ∧
      ((s.tx t).resume vars status).raised = false ∧
      ((s.tx t).resume vars status).pc.hardware = false ∧
      ((s.tx t).resume vars status).pc ≠ .body := by
    unfold Tx.holding Tx.raised
    rcases hx.2 with h | h | h <;> simp [h, Pc.hardware]
  exact hi.quiet Machine.xabort_step
    (.ofSoftware Machine.xabort_htm_self hx.1 hx'.2.2.1 fun h => absurd h hx'.2.2.2) rfl rfl rfl
    (hx'.1.trans hhold.symm) (hx'.2.1.trans hraised.symm) fun h => by simp [hx'.2.1] at h

theorem next_inv (hi : Inv m₀ s) (hnext : next rtm t s.shared (s.tx t) c = some q) :
    Inv m₀ (s.put t q.1 q.2) := by
  unfold next at hnext
  split at hnext
  · next vars status hsaved =>
      cases hnext
      exact resume_inv hi (by simp [hsaved]) vars status
  · next vars c hsaved _ =>
      obtain ⟨h, hh, hnext⟩ := Option.bind_eq_some_iff.1 hnext
      exact hwNext_inv hi hh (by simp [hsaved]) hnext
  · next hsaved => exact swNext_inv hi hsaved hnext

theorem inv_run (hr : Run (step rtm) anyStep (init T m₀) s) : Inv m₀ s := by
  refine hr.induction_on ?_ fun s₁ l s₂ _ h hs _ => ?_
  · exact
      { apart := fun _ _ _ _ _ h => by cases h
        knows := fun _ => .ofSoftware rfl rfl rfl fun h => by cases h
        lock := fun _ => by simp [init, Tx.holding]
        owner := rfl
        serial := ⟨start m₀, rfl, trivial, fun _ _ => rfl⟩ }
  · obtain ⟨σ, x, hnext, rfl⟩ := Threads.step_eq_some hs
    exact next_inv h hnext

end Threads

/-- The transactions are a serial run, in the order in which they take effect, which leads to
memory while no thread is past its store to `sgl_owner`. At most one thread is between acquiring
and releasing `global_tx_lock`, `sgl_owner` is 1 exactly while one is past its store, and what
`real_tm_end` unlocks is held by its thread. -/
theorem elision_serial [DecidableEq T] {rtm : Bool} (m₀ : A → Word)
    (hr : Run (step rtm) anyStep (init T m₀) s) :
    (∃ m, SerialRun (start m₀) s.shared.log m ∧
      ((∀ t, (s.tx t).raised = false) → ∀ a, s.shared.hw.mem (.cell a) = m (.cell a))) ∧
    (∀ t u, (s.tx t).holding = true → (s.tx u).holding = true → t = u) ∧
    (s.shared.hw.mem .sglOwner = 1 ↔ ∃ t, (s.tx t).raised = true) ∧
    (s.shared.hw.mem .sglOwner = 0 ∨ s.shared.hw.mem .sglOwner = 1) ∧
    ∀ t, (s.tx t).pc = .unlock → s.shared.globalTxLock = some t := by
  have hi := inv_run hr
  refine ⟨?_, fun t u ht hu => ?_, ⟨fun hone => ?_, fun ⟨t, ht⟩ => (hi.raised ht).2.2.1⟩, ?_,
    fun t ht => (hi.lock t).1 (by simp [Tx.holding, ht])⟩
  · obtain ⟨m, hrun, -, hmem⟩ := hi.serial
    refine ⟨m, hrun, fun hnone a => ?_⟩
    have hopen : opened s = none := by
      unfold opened
      cases s.shared.globalTxLock with
      | none => rfl
      | some t => simp [hnone t]
    rw [hopen] at hmem
    exact hmem (.cell a) (by simp)
  · exact Option.some.inj (((hi.lock t).1 ht).symm.trans ((hi.lock u).1 hu))
  · have howner := hi.owner
    rw [hone] at howner
    unfold opened at howner
    cases hlock : s.shared.globalTxLock with
    | none => simp [hlock] at howner
    | some t =>
        refine ⟨t, ?_⟩
        by_contra hne
        simp [hlock, hne] at howner
  · rw [hi.owner]
    split
    · exact .inr rfl
    · exact .inl rfl

/-- A hardware transaction increments a cell; another thread is aborted, takes the lock and
increments it again. -/
theorem elision_serial_two : ∃ s : Threads (Shared (Fin 1) (Fin 2)) (Tx (Fin 1)) (Fin 2),
    Run (step true) anyStep (init (Fin 2) fun _ => 0) s ∧ s.shared.hw.mem (.cell 0) = 2 ∧
      s.shared.log = [[.write (.cell 0) 1, .read (.cell 0) 0],
        [.write (.cell 0) 2, .read (.cell 0) 1]] ∧
      ∃ m, SerialRun (start fun _ => 0) s.shared.log m := by
  obtain ⟨s, hr, hmem, hlog⟩ : ∃ s : Threads (Shared (Fin 1) (Fin 2)) (Tx (Fin 1)) (Fin 2),
      Run (step true) anyStep (init (Fin 2) fun _ => 0) s ∧ s.shared.hw.mem (.cell 0) = 2 ∧
        s.shared.log = [[.write (.cell 0) 1, .read (.cell 0) 0],
          [.write (.cell 0) 2, .read (.cell 0) 1]] :=
    exists_run_of_exec (.flatten [Threads.calls 0 [.begin, .tau, .tau, .read 0],
      Threads.calls 1 [.begin, .tau, .aborted 0, .tau],
      Threads.calls 0 [.write 0 1, .commit, .tau, .tau],
      Threads.calls 1 [.tau, .read 0, .write 0 2, .commit, .tau, .tau]]) (by decide +kernel)
  obtain ⟨⟨m, hserial, -⟩, -⟩ := elision_serial _ hr
  exact ⟨s, hr, hmem, hlog, m, hserial⟩

end TsxSgl
