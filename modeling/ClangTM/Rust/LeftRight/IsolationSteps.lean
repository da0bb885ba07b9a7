import ClangTM.Rust.LeftRight.Isolation

/-!
# The steps of isolated sessions

Every step under the condition `Isolated` keeps the invariant of the sessions. Most steps
move a program counter; the others take the lock, write or undo, call `tm_commit`, publish an
entry, or release the lock.
-/

namespace Rust.LeftRight

open Serial Transition

section Recorded

variable {T : Type} {C : Access → Prop} {m₀ : Addr → BitVec 8} {g g' : Book T} {x : Session}
  {tx' : Tx}

theorem TxInv.goOn (h : TxInv C m₀ g x) (hlog : g'.log = g.log) (hwriters : g'.writers = g.writers)
    (hws : tx'.writeSet = x.tx.writeSet) (hloaded : loaded tx'.pc = loaded x.tx.pc)
    (hidle : tx'.pc ≠ .idle ∨ x.inTx = true) (hunlocked : tx'.lockHeld = false → x.tx.writeSet = [])
    (hcur : x.inTx = true → tx'.lockHeld = true → ∀ p ∈ x.seen, settled m₀ g p.1 = p.2)
    (hhere : Here C g'.globals { x with tx := tx' }) : TxInv C m₀ g' { x with tx := tx' } := by
  have hseen : ({ x with tx := tx' } : Session).seen = x.seen := by
    unfold Session.seen
    rw [hloaded]
  refine ⟨⟨?_, ?_, h.recorded.only, h.recorded.self, ?_⟩, fun hin => ⟨?_, fun hpc => ?_⟩, ?_, ?_,
      ?_, hhere⟩
  · rw [hws]
    exact h.recorded.cells
  · rw [hws]
    exact h.recorded.writes
  · rw [hseen]
    exact h.recorded.reads
  · rw [hws]
    exact (h.outside hin).1
  · rcases hidle with hne | hin'
    · exact absurd hpc hne
    · have hin : x.inTx = false := hin
      rw [hin] at hin'
      cases hin'
  · rw [hws]
    exact hunlocked
  · rw [hseen, hlog, hwriters]
    exact h.snapshot
  · rw [hseen]
    unfold settled
    rw [hlog, hwriters]
    exact hcur

theorem TxInv.move (h : TxInv C m₀ g x) (hlog : g'.log = g.log) (hwriters : g'.writers = g.writers)
    (hws : tx'.writeSet = x.tx.writeSet) (hheld : tx'.lockHeld = x.tx.lockHeld)
    (hloaded : loaded tx'.pc = loaded x.tx.pc) (hidle : tx'.pc ≠ .idle ∨ x.inTx = true)
    (hhere : Here C g'.globals { x with tx := tx' }) : TxInv C m₀ g' { x with tx := tx' } :=
  h.goOn hlog hwriters hws hloaded hidle (fun hfree => h.unlocked (hheld ▸ hfree))
    (fun hin hlock => h.current hin (hheld ▸ hlock)) hhere

theorem seen_of_idle (hpc : x.tx.pc = .idle) : x.seen = external x.ops := by
  unfold Session.seen
  rw [hpc]
  exact List.append_nil _

/-- Between two calls of a transaction. -/
theorem TxInv.between (hin : x.inTx = true) (hpc : x.tx.pc = .idle) (hrec : Recorded C x)
    (hunlocked : x.tx.lockHeld = false → x.tx.writeSet = [])
    (hsnap : ∃ n ≤ g.writers, ∀ p ∈ external x.ops, memAt (fun k => k.load m₀) g.log n p.1 = p.2)
    (hcur : x.tx.lockHeld = true → ∀ p ∈ external x.ops, settled m₀ g p.1 = p.2) :
    TxInv C m₀ g x := by
  rw [← seen_of_idle hpc] at hsnap hcur
  refine ⟨hrec, fun hout => ?_, hunlocked, fun _ => hsnap, fun _ => hcur, ?_⟩
  · rw [hin] at hout
    cases hout
  · unfold Here
    rw [hpc]
    trivial

theorem TxInv.read (h : TxInv C m₀ g x) {k : Access} {v : Word} (hin : x.inTx = true) (hk : C k)
    (hnone : lastVal x.tx.writeSet.reverse k.addr = none) (hws : tx'.writeSet = x.tx.writeSet)
    (hheld : tx'.lockHeld = x.tx.lockHeld) (hpc : tx'.pc = .idle)
    (hsnap : ∃ n ≤ g.writers, ∀ p ∈ (k, v) :: external x.ops,
      memAt (fun k => k.load m₀) g.log n p.1 = p.2)
    (hcur : x.tx.lockHeld = true → ∀ p ∈ (k, v) :: external x.ops, settled m₀ g p.1 = p.2) :
    TxInv C m₀ g { x with tx := tx', ops := .read k v :: x.ops } := by
  have hlast : lastWrite x.ops k = none := by
    rw [h.recorded.writes hin k hk, hnone]
    rfl
  have hext := external_read_of_none (v := v) hlast
  refine .between hin hpc ⟨?_, ?_, h.recorded.only, ⟨fun w hw => ?_, h.recorded.self⟩,
    fun p hp => ?_⟩ ?_ (by rwa [hext]) (by rwa [hext, hheld])
  · rw [hws]
    exact h.recorded.cells
  · rw [hws]
    exact h.recorded.writes
  · rw [hlast] at hw
    cases hw
  · rw [seen_of_idle hpc, hext] at hp
    rcases List.mem_cons.1 hp with rfl | hp
    · exact hk
    · exact h.recorded.reads p (List.mem_append_left _ hp)
  · rw [hws, hheld]
    exact h.unlocked

theorem TxInv.readOwn (h : TxInv C m₀ g x) {k : Access} {v : Word} (hin : x.inTx = true) (hk : C k)
    (hpc : x.tx.pc = .idle) (hv : lastVal x.tx.writeSet.reverse k.addr = some v)
    (hws : tx'.writeSet = x.tx.writeSet) (hheld : tx'.lockHeld = x.tx.lockHeld)
    (hpc' : tx'.pc = .idle) :
    TxInv C m₀ g { x with tx := tx', ops := .read k (k.width.low v) :: x.ops } := by
  have hlast : lastWrite x.ops k = some (k.width.low v) := by
    rw [h.recorded.writes hin k hk, hv]
    rfl
  have hext : external (.read k (k.width.low v) :: x.ops) = x.seen := by
    rw [external_read_of_some hlast, seen_of_idle hpc]
  refine .between hin hpc' ⟨?_, ?_, h.recorded.only, ⟨fun w hw => ?_, h.recorded.self⟩, ?_⟩ ?_
    (by rw [hext]; exact h.snapshot hin) (by rw [hext, hheld]; exact h.current hin)
  · rw [hws]
    exact h.recorded.cells
  · rw [hws]
    exact h.recorded.writes
  · rw [hlast] at hw
    exact (Option.some.inj hw).symm
  · rw [seen_of_idle hpc', hext]
    exact h.recorded.reads
  · rw [hws, hheld]
    exact h.unlocked

theorem TxInv.write (hC : Cells C) (h : TxInv C m₀ g x) {a : Addr} {v : Word}
    {w : Width} {inactive : Copy} {oldVal : Option Word}
        (hpc : x.tx.pc = .writeMap a v w inactive oldVal)
    (hws : tx'.writeSet = x.tx.writeSet ++ [⟨a, v, oldVal, w⟩])
    (hheld : tx'.lockHeld = x.tx.lockHeld) (hpc' : tx'.pc = .idle) (hlog : g'.log = g.log)
    (hwriters : g'.writers = g.writers) :
    TxInv C m₀ g' { x with tx := tx', ops := .write ⟨a, w⟩ (w.low v) :: x.ops } := by
  have hhere := h.here
  unfold Here at hhere
  rw [hpc] at hhere
  obtain ⟨hin, hk, hlock, -⟩ := hhere
  have hext : external (.write ⟨a, w⟩ (w.low v) :: x.ops) = x.seen := by
    rw [external_write, Session.seen, hpc]
    exact (List.append_nil _).symm
  refine .between hin hpc'
    ⟨fun e he => ?_, fun _ k hkC => ?_, fun k u hu => ?_, h.recorded.self, ?_⟩
    (fun hfree => ?_) (by rw [hext, hlog, hwriters]; exact h.snapshot hin) ?_
  · rw [hws] at he
    rcases List.mem_append.1 he with he | he
    · exact h.recorded.cells e he
    · obtain rfl := List.mem_singleton.1 he
      exact hk
  · rw [lastWrite_write, hws, List.reverse_append]
    show _ = (lastVal (⟨a, v, oldVal, w⟩ :: x.tx.writeSet.reverse) k.addr).map k.width.low
    rw [lastVal_cons]
    by_cases hka : k = ⟨a, w⟩
    · subst hka
      simp
    · have hne : a ≠ k.addr := fun heq => hka (hC.eq_of_addr hkC hk heq.symm)
      rw [if_neg hka, if_neg hne]
      exact h.recorded.writes hin k hkC
  · rw [lastWrite_write] at hu
    by_cases hka : k = ⟨a, w⟩
    · exact hka ▸ hk
    · rw [if_neg hka] at hu
      exact h.recorded.only k u hu
  · rw [seen_of_idle hpc', hext]
    exact h.recorded.reads
  · rw [← hheld, show tx'.lockHeld = false from hfree] at hlock
    cases hlock
  · rw [hext, hheld]
    unfold settled
    rw [hlog, hwriters]
    exact h.current hin

theorem TxInv.start (hpc : x.tx.pc = .idle) (hin : x.inTx = true) (hops : x.ops = [])
    (hws : x.tx.writeSet = []) : TxInv C m₀ g x := by
  have hext : external x.ops = [] := by
    rw [hops]
    rfl
  refine .between hin hpc ⟨by simp [hws], fun _ k _ => ?_, fun k v hv => ?_, ?_, ?_⟩ (fun _ => hws)
    ⟨0, Nat.zero_le _, by simp [hext]⟩ fun _ => by simp [hext]
  · rw [hops, hws]
    rfl
  · rw [hops] at hv
    cases hv
  · rw [hops]
    trivial
  · simp [seen_of_idle hpc, hext]

theorem TxInv.outsideOf (hrec : Recorded C x) (hin : x.inTx = false) (hws : x.tx.writeSet = [])
    (hidle : x.tx.pc = .idle → x.tx.lockHeld = false) (hhere : Here C g.globals x) :
    TxInv C m₀ g x where
  recorded := hrec
  outside _ := ⟨hws, hidle⟩
  unlocked _ := hws
  snapshot h := by
    rw [hin] at h
    cases h
  current h := by
    rw [hin] at h
    cases h
  here := hhere

theorem Recorded.finish (h : Recorded C x) (hws : tx'.writeSet = []) (hpc : loaded tx'.pc = []) :
    Recorded C { x with tx := tx', inTx := false } where
  cells e he := by
    rw [show ({ x with tx := tx', inTx := false } : Session).tx.writeSet = [] from hws] at he
    cases he
  writes hin := by cases hin
  only := h.only
  self := h.self
  reads p hp := by
    unfold Session.seen at hp
    rw [show loaded ({ x with tx := tx', inTx := false } : Session).tx.pc = [] from hpc,
      List.append_nil] at hp
    exact h.reads p (List.mem_append_left _ hp)

end Recorded

section Tau

variable {T : Type} [DecidableEq T] {C : Access → Prop} {m₀ : Addr → BitVec 8}
  {s : Threads (Book T) Session T} {t : T}

def TauGood (C : Access → Prop) (m₀ : Addr → BitVec 8) (s : Threads (Book T) Session T)
    (t : T) : Prop :=
  Good C m₀ s t (s.shared.move t (access s.shared.globals (s.tx t).tx).1)
    { s.tx t with
      tx := (access s.shared.globals (s.tx t).tx).2
      ops := (completed s.shared.globals (s.tx t).tx .tau).toList ++ (s.tx t).ops }

theorem tauGood_of {p : Pc} {σ' : Shared} {tx' : Tx} {o : Option (Op Access Word)}
    (hpc : (s.tx t).tx.pc = p)
    (hacc : access s.shared.globals { (s.tx t).tx with pc := p } = (σ', tx'))
    (hcomp : completed s.shared.globals { (s.tx t).tx with pc := p } .tau = o)
    (hg : Good C m₀ s t (s.shared.move t σ')
      { s.tx t with tx := tx', ops := o.toList ++ (s.tx t).ops }) :
    TauGood C m₀ s t := by
  subst hpc
  unfold TauGood
  rw [hacc, hcomp]
  exact hg

variable (h : SessionInv C m₀ s)
include h

variable {a : Addr} {w : Width}

omit [DecidableEq T] in
theorem hereAt {p : Pc} (hpc : (s.tx t).tx.pc = p) :
    Here C s.shared.globals { s.tx t with tx := { (s.tx t).tx with pc := p } } := by
  subst hpc
  exact (h.tx t).here

/-- An access that moves the program counter from `p₀` to `p` and changes neither the copies
nor memory nor the lock. -/
theorem tauGood_pc {p₀ p : Pc} {σ : Shared} (hpc : (s.tx t).tx.pc = p₀)
    (hacc : access s.shared.globals { (s.tx t).tx with pc := p₀ } =
      (σ, { (s.tx t).tx with pc := p }))
    (hcomp : completed s.shared.globals { (s.tx t).tx with pc := p₀ } .tau = none)
    (hmaps : σ.maps = s.shared.globals.maps) (hmem : σ.mem = s.shared.globals.mem)
    (hlock : σ.lock = s.shared.globals.lock)
    (hstage : stage { (s.tx t).tx with pc := p } = stage { (s.tx t).tx with pc := p₀ })
    (hloaded : loaded p = loaded p₀) (hidle : p ≠ .idle)
    (hhere : Here C s.shared.globals { s.tx t with tx := { (s.tx t).tx with pc := p₀ } } →
      Here C s.shared.globals { s.tx t with tx := { (s.tx t).tx with pc := p } }) :
    TauGood C m₀ s t := by
  have hhere' := hhere (hereAt h hpc)
  subst hpc
  exact tauGood_of rfl hacc hcomp (good_move h hmaps hmem hlock rfl (fun _ => hstage)
    ((h.tx t).move rfl rfl rfl rfl hloaded (.inl hidle) hhere'))

theorem tauGood_stay {p : Pc} (hpc : (s.tx t).tx.pc = p)
    (hacc : access s.shared.globals { (s.tx t).tx with pc := p } =
      (s.shared.globals, { (s.tx t).tx with pc := p }))
    (hcomp : completed s.shared.globals { (s.tx t).tx with pc := p } .tau = none) :
    TauGood C m₀ s t := by
  subst hpc
  exact tauGood_of rfl hacc hcomp (good_move h rfl rfl rfl rfl (fun _ => rfl) (h.tx t))

omit [DecidableEq T] in
theorem stageAt {p : Pc} (hpc : (s.tx t).tx.pc = p) (ht : (s.tx t).tx.lockHeld = true) :
    StageInv C (settled m₀ s.shared) s.shared.globals (stage { (s.tx t).tx with pc := p }) := by
  subst hpc
  exact stageInv h ht rfl

omit [DecidableEq T] in
theorem writing_of_quiet (hquiet : ∀ t, publishing (s.tx t).tx = false) :
    ∃ rws, Writing C (settled m₀ s.shared) s.shared.globals rws := by
  have hstage := h.stage
  unfold work at hstage
  cases hu : s.shared.holder with
  | none =>
      rw [hu] at hstage
      exact ⟨[], hstage⟩
  | some u =>
      rw [hu] at hstage
      have hpub := hquiet u
      unfold publishing at hpub
      cases hst : stage (s.tx u).tx with
      | writing rws =>
          simp only [hst] at hstage
          exact ⟨rws, hstage⟩
      | publishing sync rest =>
          rw [hst] at hpub
          cases hpub

omit [DecidableEq T] in
/-- What a thread finds at an access while no other one is publishing. -/
theorem writing_of_undisturbed {p : Pc} (hpc : (s.tx t).tx.pc = p)
    (hpub : publishing { (s.tx t).tx with pc := p } = false)
    (hactive : s.shared.globals.active = false)
    (hb : (∀ u, u ≠ t → publishing (s.tx u).tx = false) ∧
      ∀ p ∈ external (s.tx t).ops, current s.shared.globals p.1 = p.2) :
    (∃ rws, Writing C (settled m₀ s.shared) s.shared.globals rws) ∧
      ∀ p ∈ external (s.tx t).ops, settled m₀ s.shared p.1 = p.2 := by
  subst hpc
  have hquiet : ∀ u, publishing (s.tx u).tx = false := by
    intro u
    rcases eq_or_ne u t with rfl | hu
    · exact hpub
    · exact hb.1 u hu
  obtain ⟨rws, hwriting⟩ := writing_of_quiet h hquiet
  refine ⟨⟨rws, hwriting⟩, fun p hp => ?_⟩
  refine (hwriting.current_eq hactive ((h.tx t).recorded.reads p ?_)).symm.trans (hb.2 p hp)
  exact List.mem_append_left _ hp

theorem good_stage {σ' : Shared} {tx' : Tx} {ops : Trace Access Word}
    (ht : (s.tx t).tx.lockHeld = true) (hheld : tx'.lockHeld = true)
    (hlock : σ'.lock = s.shared.globals.lock)
    (hstage : StageInv C (settled m₀ s.shared) σ' (stage tx'))
    (htx : TxInv C m₀ { s.shared with globals := σ' } { s.tx t with tx := tx', ops := ops }) :
    Good C m₀ s t (s.shared.move t σ') { s.tx t with tx := tx', ops := ops } := by
  rw [move_same _ _ hlock]
  exact good_holder h ht hheld rfl hlock le_rfl (fun _ _ => rfl) hstage
    ⟨h.hist.upTo, h.hist.legal, h.hist.ro⟩ htx

/-- An access of the holder that moves the program counter from `p₀` to `p`. -/
theorem tauGood_stage {p₀ p : Pc} {σ : Shared} (hpc : (s.tx t).tx.pc = p₀)
    (hacc : access s.shared.globals { (s.tx t).tx with pc := p₀ } =
      (σ, { (s.tx t).tx with pc := p }))
    (hcomp : completed s.shared.globals { (s.tx t).tx with pc := p₀ } .tau = none)
    (hlock : σ.lock = s.shared.globals.lock) (ht : (s.tx t).tx.lockHeld = true)
    (hstage : StageInv C (settled m₀ s.shared) σ (stage { (s.tx t).tx with pc := p }))
    (hloaded : loaded p = loaded p₀) (hidle : p ≠ .idle)
    (hhere : Here C σ { s.tx t with tx := { (s.tx t).tx with pc := p } }) : TauGood C m₀ s t := by
  subst hpc
  exact tauGood_of rfl hacc hcomp (good_stage h ht ht hlock hstage
    ((h.tx t).move rfl rfl rfl rfl hloaded (.inl hidle) hhere))

theorem writeCas_good {v : Word} (hpc : (s.tx t).tx.pc = .writeCas a v w)
    (hactive : s.shared.globals.active = false)
    (hb : s.shared.globals.lock = false → (∀ u, u ≠ t → publishing (s.tx u).tx = false) ∧
      ∀ p ∈ external (s.tx t).ops, current s.shared.globals p.1 = p.2) : TauGood C m₀ s t := by
  cases hlock : s.shared.globals.lock with
  | true => exact tauGood_stay h hpc (if_pos hlock) rfl
  | false =>
      obtain ⟨hin, hk, hheld⟩ := hereAt h hpc
      have hnone := h.free.1 hlock
      have hws := (h.tx t).unlocked hheld
      have hwriting : StageInv C (settled m₀ s.shared) s.shared.globals (.writing []) := by
        have hstage := h.stage
        rwa [work, hnone] at hstage
      have hacc : access s.shared.globals { (s.tx t).tx with pc := .writeCas a v w } =
          ({ s.shared.globals with lock := true },
            { (s.tx t).tx with pc := .writeActive a v w, lockHeld := true }) :=
        if_neg (by simp [hlock])
      refine tauGood_of hpc hacc rfl ?_
      have hmove : s.shared.move t { s.shared.globals with lock := true } =
          { s.shared with
            globals := { s.shared.globals with lock := true }, holder := some t } := by
        simp [Book.move, hlock]
      rw [hmove]
      refine ⟨by simp, fun u hu => by simp [hnone, hu.symm], by simp, ?_,
        ⟨h.hist.upTo, h.hist.legal, h.hist.ro⟩, ?_, fun u _ hu => hu.congr rfl rfl rfl⟩
      · rw [work_put_self rfl]
        show StageInv C _ _ (.writing (s.tx t).tx.writeSet.reverse)
        rw [hws]
        exact hwriting.congr rfl rfl
      · refine (h.tx t).goOn rfl rfl rfl (by rw [hpc]; rfl) (.inr hin) (fun hfree => by cases hfree)
          (fun _ _ p hp => ?_) ⟨hin, hk, rfl⟩
        rw [Session.seen, hpc] at hp
        exact (writing_of_undisturbed h hpc rfl hactive (hb hlock)).2 p (by simpa [loaded] using hp)

theorem writeMap_good (hC : Cells C) {v : Word} {oldVal : Option Word}
    (hpc : (s.tx t).tx.pc = .writeMap a v w .right oldVal) : TauGood C m₀ s t := by
  obtain ⟨hin, hk, hheld, hold⟩ := hereAt h hpc
  refine tauGood_of hpc rfl rfl (good_stage h hheld hheld rfl ?_
    ((h.tx t).write hC hpc rfl rfl rfl rfl rfl))
  have hwriting : Writing C _ _ (s.tx t).tx.writeSet.reverse := stageAt h hpc hheld
  unfold stage
  dsimp only
  rw [List.reverse_append]
  exact hwriting.write ⟨a, v, oldVal, w⟩ hold

theorem abortUndo_good {rest : List WriteEntry} (hpc : (s.tx t).tx.pc = .abortUndo .right rest) :
    TauGood C m₀ s t := by
  obtain ⟨hin, hheld⟩ := hereAt h hpc
  cases rest with
  | nil =>
      exact tauGood_pc h hpc (p := .release) rfl rfl rfl rfl rfl rfl rfl (by simp) fun _ => hin
  | cons e rest =>
      have hwriting : Writing C _ _ (e :: rest) := stageAt h hpc hheld
      exact tauGood_stage h hpc (p := .abortUndo .right rest) rfl rfl rfl hheld hwriting.undo rfl
        (by simp) ⟨hin, hheld⟩

theorem commitSyncRead_good {rest ws : List WriteEntry}
    (hpc : (s.tx t).tx.pc = .commitSyncRead true rest ws) : TauGood C m₀ s t := by
  obtain ⟨hin, hheld⟩ := hereAt h hpc
  cases rest with
  | nil =>
      exact tauGood_pc h hpc (p := .commitMem ws) rfl rfl rfl rfl rfl rfl rfl (by simp) id
  | cons e rest =>
      have hpub : Publishing C _ _ (e.addr :: rest.map WriteEntry.addr) ws := stageAt h hpc hheld
      cases hv : s.shared.globals.maps .right e.addr with
      | none => exact absurd hv (hpub.there e.addr List.mem_cons_self)
      | some v =>
          have hv' : s.shared.globals.maps (src true) e.addr = some v := hv
          refine tauGood_pc h hpc (p := .commitSyncWrite true e.addr v rest ws)
            (σ := s.shared.globals) ?_ rfl rfl rfl rfl rfl rfl (by simp) fun _ => ⟨hin, hheld, hv⟩
          simp only [access, hv']

theorem commitSyncWrite_good {v : Word} {rest ws : List WriteEntry}
    (hpc : (s.tx t).tx.pc = .commitSyncWrite true a v rest ws) : TauGood C m₀ s t := by
  obtain ⟨hin, hheld, hv⟩ := hereAt h hpc
  have hpub : Publishing C _ _ (a :: rest.map WriteEntry.addr) ws := stageAt h hpc hheld
  exact tauGood_stage h hpc (p := .commitSyncRead true rest ws) rfl rfl rfl hheld (hpub.sync hv)
    rfl (by simp) ⟨hin, hheld⟩

theorem commitMem_good (hC : Cells C) {rest : List WriteEntry}
    (hpc : (s.tx t).tx.pc = .commitMem rest) : TauGood C m₀ s t := by
  obtain ⟨hin, hheld⟩ := hereAt h hpc
  have hpub : Publishing C _ _ [] rest := stageAt h hpc hheld
  cases rest with
  | nil =>
      exact tauGood_stage h hpc (p := .release) rfl rfl rfl hheld hpub.done rfl (by simp) hin
  | cons e rest =>
      exact tauGood_stage h hpc (p := .commitMem rest) rfl rfl rfl hheld (hpub.store hC) rfl
        (by simp) ⟨hin, hheld⟩

theorem release_good (hpc : (s.tx t).tx.pc = .release) : TauGood C m₀ s t := by
  have hin : (s.tx t).inTx = false := hereAt h hpc
  have hrec := (h.tx t).recorded
  have hws := ((h.tx t).outside hin).1
  have htx : ∀ g : Book T, TxInv C m₀ g
      { s.tx t with tx := { (s.tx t).tx with pc := .idle, lockHeld := false } } := by
    intro g
    refine .outsideOf ⟨hrec.cells, hrec.writes, hrec.only, hrec.self, fun p hp => ?_⟩ hin hws
      (fun _ => rfl) trivial
    rw [seen_of_idle rfl] at hp
    exact hrec.reads p (List.mem_append_left _ hp)
  cases hheld : (s.tx t).tx.lockHeld with
  | false =>
      have hacc : access s.shared.globals { (s.tx t).tx with pc := .release } =
          (s.shared.globals, { (s.tx t).tx with pc := .idle, lockHeld := false }) := by
        simp [access, hheld]
      refine tauGood_of hpc hacc rfl (good_move h rfl rfl rfl hheld.symm (fun hlock => ?_) (htx _))
      rw [hheld] at hlock
      cases hlock
  | true =>
      have hholder := (h.holder t).1 hheld
      have hlock : s.shared.globals.lock = true := by
        by_contra hfree
        rw [h.free.1 (Bool.eq_false_iff.2 hfree)] at hholder
        cases hholder
      have hacc : access s.shared.globals { (s.tx t).tx with pc := .release } =
          ({ s.shared.globals with lock := false },
            { (s.tx t).tx with pc := .idle, lockHeld := false }) := by
        simp [access, hheld]
      have hwriting : StageInv C _ _ (.writing []) := stageAt h hpc hheld
      have hmove : s.shared.move t { s.shared.globals with lock := false } =
          { s.shared with globals := { s.shared.globals with lock := false }, holder := none } := by
        simp [Book.move, hlock]
      refine tauGood_of hpc hacc rfl ?_
      rw [hmove]
      exact ⟨by simp, fun u hu => by simp [hholder, hu.symm], by simp, hwriting.congr rfl rfl,
        ⟨h.hist.upTo, h.hist.legal, h.hist.ro⟩, htx _, fun u _ hu => hu.congr rfl rfl rfl⟩

theorem readMap_good (hpc : (s.tx t).tx.pc = .readMap a w false)
    (hactive : s.shared.globals.active = false)
    (hb : (∀ u, u ≠ t → publishing (s.tx u).tx = false) ∧
      ∀ p ∈ external (s.tx t).ops, current s.shared.globals p.1 = p.2) : TauGood C m₀ s t := by
  obtain ⟨hin, hk, hnone⟩ := hereAt h hpc
  obtain ⟨⟨rws, hwriting⟩, hold⟩ := writing_of_undisturbed h hpc rfl hactive hb
  have hload : ∀ p ∈ loaded (.readSub a w false (s.shared.globals.maps .left a)),
      p.1 = ⟨a, w⟩ ∧ settled m₀ s.shared p.1 = p.2 := by
    intro p hp
    cases hv : s.shared.globals.maps .left a with
    | none =>
        rw [hv] at hp
        cases hp
    | some v =>
        rw [hv] at hp
        obtain rfl := List.mem_singleton.1 hp
        exact ⟨rfl, (hwriting.left ⟨a, w⟩ v hk hv).symm⟩
  have hall : ∀ p ∈ external (s.tx t).ops ++
      loaded (.readSub a w false (s.shared.globals.maps .left a)), settled m₀ s.shared p.1 = p.2 :=
    fun p hp => (List.mem_append.1 hp).elim (hold p) fun hp => (hload p hp).2
  refine tauGood_of hpc rfl rfl (good_move h rfl rfl rfl rfl (fun _ => ?_) ?_)
  · unfold stage
    rw [hpc]
  · have hrec := (h.tx t).recorded
    refine ⟨⟨hrec.cells, hrec.writes, hrec.only, hrec.self, fun p hp => ?_⟩, fun hout => ?_,
      (h.tx t).unlocked, fun _ => ⟨_, le_rfl, hall⟩, fun _ _ => hall, hin, hk, hnone⟩
    · rcases List.mem_append.1 hp with hp | hp
      · exact hrec.reads p (List.mem_append_left _ hp)
      · rw [(hload p hp).1]
        exact hk
    · rw [show (s.tx t).inTx = false from hout] at hin
      cases hin

theorem readSub_good {val : Option Word} (hpc : (s.tx t).tx.pc = .readSub a w false val) :
    TauGood C m₀ s t := by
  obtain ⟨hin, hk, hnone⟩ := hereAt h hpc
  cases val with
  | none =>
      exact tauGood_pc h hpc (p := .readMem a w) rfl rfl rfl rfl rfl rfl rfl (by simp) id
  | some v =>
      have hseen : ∀ p ∈ (⟨a, w⟩, w.low v) :: external (s.tx t).ops, p ∈ (s.tx t).seen := by
        intro p hp
        unfold Session.seen
        rw [hpc]
        rcases List.mem_cons.1 hp with rfl | hp
        · exact List.mem_append_right _ List.mem_cons_self
        · exact List.mem_append_left _ hp
      refine tauGood_of hpc rfl rfl (good_move h rfl rfl rfl rfl (fun _ => ?_) ?_)
      · unfold stage
        rw [hpc]
        rfl
      · obtain ⟨n, hn, hsnap⟩ := (h.tx t).snapshot hin
        exact (h.tx t).read hin hk hnone rfl rfl rfl ⟨n, hn, fun p hp => hsnap p (hseen p hp)⟩
          fun hheld p hp => (h.tx t).current hin hheld p (hseen p hp)

theorem readMem_good (hpc : (s.tx t).tx.pc = .readMem a w)
    (hactive : s.shared.globals.active = false)
    (hb : (∀ u, u ≠ t → publishing (s.tx u).tx = false) ∧
      ∀ p ∈ external (s.tx t).ops, current s.shared.globals p.1 = p.2) : TauGood C m₀ s t := by
  obtain ⟨hin, hk, hnone⟩ := hereAt h hpc
  obtain ⟨⟨rws, hwriting⟩, hold⟩ := writing_of_undisturbed h hpc rfl hactive hb
  have hall : ∀ p ∈ (⟨a, w⟩, w.low (loadBytes s.shared.globals.mem a w.bytes)) ::
      external (s.tx t).ops, settled m₀ s.shared p.1 = p.2 := by
    refine List.forall_mem_cons.2 ⟨?_, hold⟩
    exact ((Access.low_load _ ⟨a, w⟩).trans (hwriting.mem ⟨a, w⟩ hk)).symm
  refine tauGood_of hpc rfl rfl (good_move h rfl rfl rfl rfl (fun _ => ?_) ?_)
  · unfold stage
    rw [hpc]
  · exact (h.tx t).read hin hk hnone rfl rfl rfl ⟨_, le_rfl, hall⟩ fun _ => hall

theorem access_good (hC : Cells C) (hbase : Inv (erase s)) {s' : Threads (Book T) Session T}
    (hb : Isolated C s (t, .tau) s') (hidle : (s.tx t).tx.pc ≠ .idle) : TauGood C m₀ s t := by
  have hactive : s.shared.globals.active = false := hbase.active
  have hsaw : (s.tx t).tx.pc.sawLeft = true := hbase.saw t
  have hrely := hb.2
  unfold relies at hrely
  dsimp only at hrely
  cases hpc : (s.tx t).tx.pc with
  | idle => exact absurd hpc hidle
  | writeCas a v w =>
      rw [hpc] at hrely
      exact writeCas_good h hpc hactive fun hlock => hrely (by simp [hlock])
  | writeActive a v w =>
      refine tauGood_pc h hpc (p := .writeOld a v w .right) (σ := s.shared.globals) ?_
        rfl rfl rfl rfl rfl rfl (by simp) id
      simp [access, inactiveCopy, hactive]
  | writeOld a v w inactive =>
      obtain rfl : inactive = .right := by simpa [hpc, Pc.sawLeft] using hsaw
      exact tauGood_pc h hpc (p := .writeMap a v w .right (s.shared.globals.maps .right a)) rfl
        rfl rfl rfl rfl rfl rfl (by simp) fun h => ⟨h.1, h.2.1, h.2.2, rfl⟩
  | writeMap a v w inactive oldVal =>
      obtain rfl : inactive = .right := by simpa [hpc, Pc.sawLeft] using hsaw
      exact writeMap_good h hC hpc
  | abortActive ws =>
      refine tauGood_pc h hpc (p := .abortUndo .right ws.reverse) (σ := s.shared.globals) ?_
        rfl rfl rfl rfl rfl rfl (by simp) id
      simp [access, inactiveCopy, hactive]
  | abortUndo inactive rest =>
      obtain rfl : inactive = .right := by simpa [hpc, Pc.sawLeft] using hsaw
      exact abortUndo_good h hpc
  | commitActive ws =>
      exact tauGood_pc h hpc (p := .commitFlip (!s.shared.globals.active) ws) rfl
        rfl rfl rfl rfl rfl rfl (by simp) id
  | commitFlip activeWasLeft ws =>
      exact tauGood_pc h hpc (p := .commitDrain activeWasLeft ws) rfl
        rfl rfl rfl rfl rfl rfl (by simp) id
  | commitDrain activeWasLeft ws =>
      by_cases hdrain : 0 < s.shared.globals.readers (dst activeWasLeft)
      · exact tauGood_stay h hpc (if_pos hdrain) rfl
      · exact tauGood_pc h hpc (p := .commitSyncRead activeWasLeft ws ws) (if_neg hdrain)
          rfl rfl rfl rfl rfl rfl (by simp) id
  | commitSyncRead activeWasLeft rest ws =>
      obtain rfl : activeWasLeft = true := by simpa [hpc, Pc.sawLeft] using hsaw
      exact commitSyncRead_good h hpc
  | commitSyncWrite activeWasLeft a v rest ws =>
      obtain rfl : activeWasLeft = true := by simpa [hpc, Pc.sawLeft] using hsaw
      exact commitSyncWrite_good h hpc
  | commitMem rest => exact commitMem_good h hC hpc
  | release => exact release_good h hpc
  | readActive a w =>
      exact tauGood_pc h hpc (p := .readAdd a w s.shared.globals.active) rfl
        rfl rfl rfl rfl rfl rfl (by simp) id
  | readAdd a w seen =>
      exact tauGood_pc h hpc (p := .readCheck a w seen) rfl rfl rfl rfl rfl rfl rfl (by simp) id
  | readCheck a w seen =>
      by_cases hseen : s.shared.globals.active = seen
      · refine tauGood_pc h hpc (p := .readMap a w seen) (σ := s.shared.globals) ?_
          rfl rfl rfl rfl rfl rfl (by simp) id
        simp [access, hseen]
      · refine tauGood_pc h hpc (p := .readBack a w seen) (σ := s.shared.globals) ?_
          rfl rfl rfl rfl rfl rfl (by simp) id
        simp [access, hseen]
  | readBack a w seen =>
      exact tauGood_pc h hpc (p := .readActive a w) rfl rfl rfl rfl rfl rfl rfl (by simp) id
  | readMap a w active =>
      obtain rfl : active = false := by simpa [hpc, Pc.sawLeft] using hsaw
      rw [hpc] at hrely
      exact readMap_good h hpc hactive (hrely rfl)
  | readSub a w active val =>
      obtain rfl : active = false := by simpa [hpc, Pc.sawLeft] using hsaw
      exact readSub_good h hpc
  | readMem a w =>
      rw [hpc] at hrely
      exact readMem_good h hpc hactive (hrely rfl)

end Tau

end Rust.LeftRight
