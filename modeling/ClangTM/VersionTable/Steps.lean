import ClangTM.VersionTable.Invariant

/-!
# The steps of the version-table backends

Every step keeps the invariant, as long as the clock does not wrap, and in `leftright` as long
as no transaction begins during a write-back.
-/

namespace VersionTable

open Serial Transition CommitLock
open Rust (Addr)

variable {T : Type} {d : Variant} {m₀ : Addr → Word}

def Bounded (d : Variant) (s : Threads (Shared T) Tx T) (l : T × Call)
    (_ : Threads (Shared T) Tx T) : Prop :=
  match (s.tx l.1).pc, l.2 with
  | .tick _, .tau => s.shared.gClock.toNat + 1 < d.limit
  | _, _ => True

instance (s : Threads (Shared T) Tx T) (l : T × Call) (s' : Threads (Shared T) Tx T) :
    Decidable (Bounded d s l s') := by
  unfold Bounded
  split <;> infer_instance

/-- No transaction begins while another one writes back. -/
def Quiet (s : Threads (Shared T) Tx T) (l : T × Call) (_ : Threads (Shared T) Tx T) : Prop :=
  match (s.tx l.1).pc, l.2 with
  | .beginClock, .tau => s.shared.dirty = []
  | _, _ => True

instance (s : Threads (Shared T) Tx T) (l : T × Call) (s' : Threads (Shared T) Tx T) :
    Decidable (Quiet s l s') := by
  unfold Quiet
  split <;> infer_instance

section Sets

variable {x : Tx} {keys : List Addr}

theorem yields_perm (h : x.yields d keys = true) : keys.Perm (x.writeSet.map Prod.fst) := by
  unfold Tx.yields at h
  cases d with
  | romulusCpp =>
      rw [beq_iff_eq.1 h]
      exact List.perm_insertionSort _ _
  | romulus => exact List.isPerm_iff.1 h
  | xtm | leftright => rw [beq_iff_eq.1 h]

theorem writeAll_toWrite {σ : Shared T} (h : Knows d σ x)
    (hkeys : keys.Perm (x.writeSet.map Prod.fst)) (m : Addr → Word) :
    writeAll m (x.toWrite d keys) = final m x.ops := by
  unfold Tx.toWrite
  cases d with
  | romulusCpp =>
      have hself : (x.writeSet.map Prod.fst).filterMap
          (fun a => (x.writeSet.lookup a).map fun v => (a, v)) = x.writeSet := by
        rw [List.filterMap_map, List.filterMap_congr (g := some), List.filterMap_some]
        intro w hw
        simp [lookup_of_mem h.buffered.nodup hw]
      have hperm := hkeys.filterMap fun a => (x.writeSet.lookup a).map fun v => (a, v)
      rw [hself] at hperm
      have hnodup := (hperm.map Prod.fst).nodup_iff.2 h.buffered.nodup
      funext a
      rw [writeAll_of_nodup m hnodup, h.buffered.final_eq, lookup_eq_of_perm hperm hnodup]
  | romulus | xtm | leftright => exact h.replayed.writes m

theorem mem_keys_of_toWrite {σ : Shared T} (h : Knows d σ x)
    (hkeys : keys.Perm (x.writeSet.map Prod.fst)) {w : Addr × Word} (hw : w ∈ x.toWrite d keys) :
    w.1 ∈ keys := by
  have hbacks : w ∈ x.writeBacks → w.1 ∈ keys := fun hw =>
    hkeys.mem_iff.2 (h.replayed.logged w hw)
  unfold Tx.toWrite at hw
  cases d with
  | romulusCpp =>
      obtain ⟨a, ha, hv⟩ := List.mem_filterMap.1 hw
      obtain ⟨v, -, rfl⟩ := Option.map_eq_some_iff.1 hv
      exact ha
  | romulus | xtm | leftright => exact hbacks hw

theorem readVersion_make {ver : Word} (h : ver.toNat < d.limit) :
    readVersion d (makeVersionEntry d ver) = ver := by
  unfold readVersion makeVersionEntry
  cases d with
  | romulusCpp =>
      have h : ver.toNat < 2 ^ 63 := h
      refine BitVec.eq_of_toNat_eq ?_
      rw [BitVec.toNat_ushiftRight, BitVec.toNat_shiftLeft, Nat.shiftLeft_eq,
        Nat.shiftRight_eq_div_pow]
      omega
  | romulus | xtm | leftright => rfl

theorem passes_le {c : Check} {entry : Word} (h : x.passes d c entry = true) :
    (readVersion d entry).toNat ≤ x.bound c := by
  unfold Tx.passes at h
  have h := (Bool.and_eq_true_iff.1 h).2
  cases c with
  | write a => exact of_decide_eq_true h
  | read a ver => exact (congrArg BitVec.toNat (beq_iff_eq.1 h)).le

end Sets

section Body

variable {σ : Shared T} {x : Tx}

theorem readWord_knows (h : Knows d σ x) (hpc : x.pc = .body) (a : Addr) :
    Knows d σ (x.readWord d a) ∧ (x.readWord d a).pc.holding = false := by
  unfold Tx.readWord
  cases hv : x.writeSet.lookup a with
  | some v =>
      refine ⟨⟨h.buffered.readOwn hv, h.replayed.read a v, h.fresh, h.listed, h.noted, h.stamped,
        h.start, h.begun, ?_⟩, by rw [hpc]; rfl⟩
      unfold Here
      rw [hpc]
      trivial
  | none =>
      cases d with
      | leftright => exact ⟨h.goto ⟨hv, fun hd => absurd rfl hd⟩, rfl⟩
      | romulusCpp | romulus | xtm => exact ⟨h.goto ⟨hv, by decide⟩, rfl⟩

theorem writeWord_knows (h : Knows d σ x) (hpc : x.pc = .body) (a : Addr) (v : Word) :
    Knows d σ (x.writeWord a v) := by
  refine ⟨h.buffered.write a v, h.replayed.write a v, h.fresh, h.listed, h.noted, h.stamped,
    h.start, h.begun, ?_⟩
  unfold Here Tx.writeWord
  rw [hpc]
  trivial

theorem pushRead_listed (h : Knows d σ x) (hd : d ≠ .leftright) {a : Addr} {ver : Word}
    (hnew : x.Newest a ver) :
    (∀ r ∈ x.readSet, r ∈ x.pushRead d a ver) ∧
      ∃ ver', (a, ver') ∈ x.pushRead d a ver ∧ ver'.toNat ≤ ver.toNat := by
  have hpush : (∀ r ∈ x.readSet, r ∈ x.readSet ++ [(a, ver)]) ∧
      ∃ ver', (a, ver') ∈ x.readSet ++ [(a, ver)] ∧ ver'.toNat ≤ ver.toNat :=
    ⟨fun r hr => List.mem_append_left _ hr, ver, by simp, le_rfl⟩
  unfold Tx.pushRead
  cases d with
  | romulusCpp | xtm => exact hpush
  | romulus =>
      dsimp only
      split
      · exact hpush
      · next hall =>
          obtain ⟨r, hr, ha⟩ : ∃ r ∈ x.readSet, r.1 = a := by simpa using hall
          exact ⟨fun r hr => hr, r.2, ha ▸ hr, hnew r hr ha⟩
  | leftright => exact absurd rfl hd

theorem noteRead_knows (h : Knows d σ x) {a : Addr} {ver val : Word} {age : ℕ}
    (hnone : x.writeSet.lookup a = none) (hnew : d ≠ .leftright → x.Newest a ver)
    (hfresh : Fresh versionIndex (core d σ)
      ⟨a, if d = .leftright then x.timestamp.toNat else ver.toNat, (val, age)⟩) :
    Knows d σ (x.noteRead d a ver val age) := by
  refine ⟨?_, h.replayed.read a val, fun r hr => ?_, fun hd r hr => ?_, fun hd r hr => ?_,
    fun hd r hr => ?_, h.start, h.begun, trivial⟩
  · have hread := h.buffered.read (v := val) hnone
    simpa [Tx.noteRead] using hread
  · rcases List.mem_append.1 hr with hr | hr
    · exact h.fresh r hr
    · rw [List.mem_singleton.1 hr]
      exact hfresh
  · obtain ⟨hold, ver', hmem, hle⟩ := pushRead_listed h hd (hnew hd)
    rcases List.mem_append.1 hr with hr | hr
    · obtain ⟨ver'', hmem', hle'⟩ := h.listed hd r hr
      exact ⟨ver'', hold _ hmem', hle'⟩
    · rw [List.mem_singleton.1 hr, if_neg hd]
      exact ⟨ver', hmem, hle⟩
  · have hle := hfresh.le
    rw [if_neg hd] at hle
    have hsub : r ∈ x.readSet ∨ r = (a, ver) := by
      have hr : r ∈ x.pushRead d a ver := hr
      unfold Tx.pushRead at hr
      split at hr <;> (try split at hr) <;> simp_all
    rcases hsub with hr | rfl
    · exact h.noted hd r hr
    · exact hle
  · rcases List.mem_append.1 hr with hr | hr
    · exact h.stamped hd r hr
    · rw [List.mem_singleton.1 hr, if_pos hd]
      rfl

end Body

section Commit

variable {σ : Shared T} {x : Tx} {keys : List Addr}

theorem due_checks (h : Knows d σ x) {r : Seen Addr (Word × ℕ)} (hr : r ∈ x.reads)
    (hrel : Relevant d keys r) : x.Due (x.checks d keys) r := by
  have hwrite : d = .leftright → x.Due (keys.map Check.write) r := fun hd =>
    ⟨.write r.addr, List.mem_map_of_mem (hrel hd), rfl, (h.stamped hd r hr).ge⟩
  have hread : d ≠ .leftright → x.Due (x.readSet.map fun r => Check.read r.1 r.2) r := fun hd => by
    obtain ⟨ver, hmem, hle⟩ := h.listed hd r hr
    exact ⟨.read r.addr ver, List.mem_map.2 ⟨_, hmem, rfl⟩, rfl, hle⟩
  unfold Tx.checks
  cases d with
  | romulusCpp | romulus =>
      obtain ⟨c, hc, hdue⟩ := hread (by decide)
      exact ⟨c, List.mem_append_right _ hc, hdue⟩
  | xtm =>
      obtain ⟨c, hc, hdue⟩ := hread (by decide)
      exact ⟨c, List.mem_append_left _ hc, hdue⟩
  | leftright => exact hwrite rfl

theorem validateFrom_knows (h : Knows d σ x) {rest : List Check}
    (hkeys : keys.Perm (x.writeSet.map Prod.fst)) (hidle : σ.Idle)
    (hreads : ∀ r ∈ x.reads, Relevant d keys r → x.Due rest r ∨ (core d σ).mem r.addr = r.val) :
    Knows d σ (x.validateFrom d rest keys) ∧ (x.validateFrom d rest keys).pc.holding = true := by
  unfold Tx.validateFrom
  cases rest with
  | cons c rest => exact ⟨h.goto ⟨hkeys, hidle, hreads⟩, rfl⟩
  | nil =>
      have hvalid : Valid d σ x.writeSet x.reads keys :=
        ⟨hkeys, hidle, fun r hr hrel => (hreads r hr hrel).resolve_left fun hdue => by
          obtain ⟨c, hc, -⟩ := hdue
          cases hc⟩
      cases d with
      | romulusCpp => exact ⟨h.goto ⟨rfl, hvalid⟩, rfl⟩
      | romulus | xtm | leftright => exact ⟨h.goto hvalid, rfl⟩

theorem due_of_passes (h : Knows d σ x) {c : Check} {rest : List Check} (hidle : σ.Idle)
    (hpass : x.passes d c (σ.table (versionIndex c.addr)) = true) {r : Seen Addr (Word × ℕ)}
    (hr : r ∈ x.reads) (hdue : x.Due (c :: rest) r ∨ (core d σ).mem r.addr = r.val) :
    x.Due rest r ∨ (core d σ).mem r.addr = r.val := by
  rcases hdue with ⟨c', hc', haddr, hle⟩ | hmem
  · rcases List.mem_cons.1 hc' with rfl | hc'
    · refine .inr ((h.fresh r hr).value ?_ ?_)
      · show versionIndex r.addr ∉ σ.dirty
        simp [hidle.2]
      · rw [← haddr]
        exact (passes_le hpass).trans hle
    · exact .inl ⟨c', hc', haddr, hle⟩
  · exact .inr hmem

theorem certified_of_valid (h : Knows d σ x) (hvalid : Valid d σ x.writeSet x.reads keys) :
    Certified d σ.mem x.ops ∧
      ∀ r ∈ x.reads, lastWrite x.ops r.addr ≠ none → (core d σ).mem r.addr = r.val := by
  have hwritten : ∀ a, lastWrite x.ops a ≠ none → a ∈ keys := fun a ha => by
    rw [h.buffered.writes, ← Option.isSome_iff_ne_none, List.lookup_isSome_iff] at ha
    obtain ⟨p, hp, heq⟩ := ha
    exact hvalid.order.mem_iff.2 (List.mem_map.2 ⟨p, hp, (beq_iff_eq.1 heq).symm⟩)
  have hown : ∀ r ∈ x.reads, lastWrite x.ops r.addr ≠ none → (core d σ).mem r.addr = r.val :=
    fun r hr hw => hvalid.reads r hr fun _ => hwritten _ hw
  refine ⟨?_, hown⟩
  unfold Certified
  split
  · intro p hp hw
    obtain ⟨r, hr, rfl⟩ := List.mem_map.1 (h.buffered.covered p hp)
    exact congrArg Prod.fst (hown r hr hw)
  · next hd =>
      refine h.buffered.legal fun p hp => ?_
      obtain ⟨r, hr, rfl⟩ := List.mem_map.1 hp
      exact congrArg Prod.fst (hvalid.reads r hr fun hd' => absurd hd' hd)

end Commit

section Steps

variable [DecidableEq T] {s : Threads (Shared T) Tx T} {t : T} (h : (system T d m₀).Inv s)
include h

variable {keys : List Addr}

theorem local_inv {x : Tx} {pc : Pc} (hpc : (s.tx t).pc = pc) (hhold : x.pc.holding = pc.holding)
    (hx : Knows d s.shared x) : (system T d m₀).Inv (s.put t s.shared x) :=
  h.put_same rfl h.shape (fun _ hy => hy) (hhold.trans (congrArg Pc.holding hpc).symm) hx

omit [DecidableEq T] in
theorem holder_eq (hpc : (s.tx t).pc.holding = true) : s.shared.holder = some t :=
  (h.holder t).1 hpc

theorem commitReadOnly_inv (hpc : (s.tx t).pc = .body) :
    (system T d m₀).Inv (s.put t (commitReadOnly d s.shared (s.tx t)).1
      (commitReadOnly d s.shared (s.tx t)).2) := by
  have hk := h.knows t
  have hhold : (s.tx t).pc.holding = false := by rw [hpc]; rfl
  refine h.put_same rfl ?_ (fun y hy => hy.congr rfl rfl rfl) hhold.symm (Knows.finish d _ _)
  refine { h.shape with ro := fun hd r hr hsettled => ?_ }
  rcases List.mem_cons.1 hr with rfl | hr
  · obtain ⟨hfree, hall⟩ := Bool.and_eq_true_iff.1 hsettled
    obtain ⟨hpending, hdirty⟩ := h.shape.idle (h.shape.free.1 (beq_iff_eq.1 hfree))
    refine ⟨s.shared.log.length, hk.begun, le_rfl, (List.length_map _).ge, s.shared.mem, ?_, ?_⟩
    · have hruns := h.shape.runs
      rw [Certified, if_neg hd, hpending] at hruns
      show SerialRun m₀ ((s.shared.log.map Commit.ops).take s.shared.log.length) _
      rw [← List.map_take, List.take_length]
      exact hruns.serialRun
    · refine hk.buffered.legal fun p hp => ?_
      obtain ⟨r, hr, rfl⟩ := List.mem_map.1 hp
      obtain ⟨ver, hmem, hle⟩ := hk.listed hd r hr
      have hver := beq_iff_eq.1 (List.all_eq_true.1 hall _ hmem)
      refine congrArg Prod.fst ((hk.fresh r hr).value ?_ ?_)
      · show versionIndex r.addr ∉ s.shared.dirty
        simp [hdirty]
      · exact (congrArg BitVec.toNat hver).le.trans hle
  · exact h.shape.ro hd r hr hsettled

theorem locked_inv (hfree : s.shared.commitLock = 0) (hpc : (s.tx t).pc.holding = false)
    (hkeys : keys.Perm ((s.tx t).writeSet.map Prod.fst)) :
    (system T d m₀).Inv (s.put t (locked d t s.shared (s.tx t) keys).1
      (locked d t s.shared (s.tx t) keys).2) := by
  have hnone := h.shape.free.1 hfree
  have he : Evolves versionIndex (core d s.shared)
      (core d (locked d t s.shared (s.tx t) keys).1) :=
    .of_eq rfl rfl rfl rfl rfl
  have hk := (h.knows t : Knows d _ _).stable he hpc
  obtain ⟨hknows, hhold⟩ := validateFrom_knows hk hkeys (h.shape.idle hnone)
    fun r hr hrel => .inl (due_checks hk hr hrel)
  refine h.put (.inr hnone) he ?_ ?_ hknows
  · exact { h.shape with
      free := ⟨fun h => (by cases h), fun h => (by cases h)⟩
      idle := fun h => (by cases h) }
  · show some t = if (Tx.validateFrom d (s.tx t) _ keys).pc.holding then some t else none
    rw [hhold, if_pos rfl]

theorem lock_inv (hpc : (s.tx t).pc = .lock keys) :
    (system T d m₀).Inv (s.put t (lock d t s.shared (s.tx t) keys).1
      (lock d t s.shared (s.tx t) keys).2) := by
  have hkeys : keys.Perm ((s.tx t).writeSet.map Prod.fst) := Knows.at (h.knows t) hpc
  have hhold : (s.tx t).pc.holding = false := by rw [hpc]; rfl
  unfold lock
  split
  · next hfree =>
      cases d with
      | romulusCpp => exact local_inv h hpc rfl (Knows.goto (h.knows t) hkeys)
      | romulus | xtm | leftright => exact locked_inv h hfree hhold hkeys
  · rw [Threads.put_self]
    exact h

theorem lockSwap_inv (hpc : (s.tx t).pc = .lockSwap keys) :
    (system T d m₀).Inv (s.put t (lockSwap d t s.shared (s.tx t) keys).1
      (lockSwap d t s.shared (s.tx t) keys).2) := by
  have hkeys : keys.Perm ((s.tx t).writeSet.map Prod.fst) := Knows.at (h.knows t) hpc
  have hhold : (s.tx t).pc.holding = false := by rw [hpc]; rfl
  unfold lockSwap
  split
  · next hfree => exact locked_inv h hfree hhold hkeys
  · next hfree =>
      have hk : Knows d s.shared { s.tx t with pc := .lock keys } := Knows.goto (h.knows t) hkeys
      refine h.put_same rfl ?_ (fun y hy => hy.congr rfl rfl rfl) hhold.symm
        (hk.congr rfl rfl rfl)
      exact { h.shape with
        free := ⟨fun h => (by cases h), fun hnone => absurd (h.shape.free.2 hnone) hfree⟩ }

theorem setLocks_inv {a : Addr} {rest keys : List Addr}
    (hpc : (s.tx t).pc = .setLocks (a :: rest) keys) : (system T d m₀).Inv (s.put t
      { s.shared with
        table := Function.update s.shared.table (versionIndex a)
          (s.shared.table (versionIndex a) ||| 1) }
      { s.tx t with pc := if rest = [] then .tick keys else .setLocks rest keys }) := by
  obtain ⟨hd, hvalid⟩ : d = .romulusCpp ∧ Valid d s.shared _ _ keys := Knows.at (h.knows t) hpc
  have hver : ∀ ℓ, readVersion d (Function.update s.shared.table (versionIndex a)
      (s.shared.table (versionIndex a) ||| 1) ℓ) = readVersion d (s.shared.table ℓ) := by
    intro ℓ
    rw [hd, Function.update_apply]
    split
    · next hℓ =>
        rw [hℓ]
        refine BitVec.eq_of_getLsbD_eq fun i hi => ?_
        simp [readVersion, BitVec.getLsbD_one]
    · rfl
  have hcore : core d { s.shared with
      table := Function.update s.shared.table (versionIndex a)
        (s.shared.table (versionIndex a) ||| 1) } = core d s.shared := by
    simp only [core, hver]
  refine h.put_same hcore ?_ (fun y hy => hy.congr hcore rfl rfl) ?_ ?_
  · exact { h.shape with ver_le := fun ℓ => by rw [hver]; exact h.shape.ver_le ℓ }
  · show Pc.holding (if rest = [] then .tick keys else .setLocks rest keys) = (s.tx t).pc.holding
    rw [hpc]
    split <;> rfl
  · refine Knows.congr (Knows.goto (h.knows t) ?_) hcore rfl rfl
    split
    · exact hvalid
    · exact ⟨hd, hvalid⟩

theorem tick_inv (hpc : (s.tx t).pc = .tick keys) (hlt : s.shared.gClock.toNat + 1 < d.limit) :
    (system T d m₀).Inv (s.put t (tick d s.shared (s.tx t) keys).1
      (tick d s.shared (s.tx t) keys).2) := by
  have hk : Knows d s.shared (s.tx t) := h.knows t
  have hvalid : Valid d s.shared (s.tx t).writeSet (s.tx t).reads keys := hk.at hpc
  obtain ⟨hpending, hdirty⟩ := hvalid.idle
  obtain ⟨hcert, hown⟩ := certified_of_valid hk hvalid
  have hhold : (s.tx t).pc.holding = true := by rw [hpc]; rfl
  have hholder := holder_eq h hhold
  have hclock : (s.shared.gClock + 1).toNat = s.shared.gClock.toNat + 1 := by
    have hle : d.limit ≤ 2 ^ 64 := by cases d <;> decide
    have hone : (1 : Word).toNat = 1 := rfl
    rw [BitVec.toNat_add, hone]
    omega
  have hcap : ∀ ℓ, (core d s.shared).cap ℓ ≤ (core d (tick d s.shared (s.tx t) keys).1).cap ℓ := by
    intro ℓ
    simp only [core, tick, hdirty, hclock, if_true]
    split
    · split <;> omega
    · exact le_rfl
  have he : Evolves versionIndex (core d s.shared) (core d (tick d s.shared (s.tx t) keys).1) := by
    refine .mark rfl rfl hcap hdirty ?_
    simp [core, tick]
  refine h.put (.inl hholder) he ?_ hholder ?_
  · refine ⟨?_, fun e he' => ?_, fun w hw => ?_, h.shape.free, fun hnone => ?_, fun ℓ => ?_, ?_,
      fun hd r hr hsettled => ?_⟩
    · have hruns := h.shape.runs
      rw [hpending] at hruns
      show RunsWith _ m₀ ((s.shared.log ++ [_]).map Commit.ops)
        (writeAll s.shared.mem ((s.tx t).toWrite d keys))
      rw [List.map_append, writeAll_toWrite hk hvalid.order]
      exact hruns.append hcert
    · rcases List.mem_append.1 he' with he' | he'
      · exact h.shape.own e he'
      · rw [List.mem_singleton.1 he']
        exact hown
    · exact List.mem_map_of_mem (mem_keys_of_toWrite hk hvalid.order hw)
    · have hnone : s.shared.holder = none := hnone
      rw [hholder] at hnone
      cases hnone
    · show _ ≤ (s.shared.gClock + 1).toNat
      rw [hclock]
      exact (h.shape.ver_le ℓ).trans (Nat.le_succ _)
    · show (s.shared.gClock + 1).toNat < _
      rw [hclock]
      exact hlt
    · show Coexisted m₀ ((s.shared.log ++ [_]).map Commit.ops) r
      rw [List.map_append]
      exact (h.shape.ro hd r hr hsettled).append _
  · refine ⟨hk.buffered, hk.replayed, fun r hr => (hk.fresh r hr).evolves he, hk.listed,
      fun hd r hr => (hk.noted hd r hr).trans (hcap _), hk.stamped,
      fun hd ℓ => (hk.start hd ℓ).trans (hcap ℓ), hk.begun.trans he.commits,
      rfl, fun ℓ hℓ => hℓ, rfl, fun ℓ hℓ => ?_⟩
    have hne : keys.map versionIndex ≠ [] := List.ne_nil_of_mem hℓ
    show (core d (tick d s.shared (s.tx t) keys).1).cap ℓ < (s.shared.gClock + 1).toNat
    rw [hclock]
    simp only [core, tick, hne, hclock, if_false]
    split
    · omega
    · exact Nat.lt_succ_of_le (h.shape.ver_le ℓ)

theorem writeBack_inv {w : Addr × Word} {rest : List (Addr × Word)} {ts : Word}
    (hpc : (s.tx t).pc = .writeBack (w :: rest) keys ts) :
    (system T d m₀).Inv (s.put t (writeBack s.shared (s.tx t) w rest keys ts).1
      (writeBack s.shared (s.tx t) w rest keys ts).2) := by
  have hk : Knows d s.shared (s.tx t) := h.knows t
  obtain ⟨hpending, hkeys, hstamping⟩ : s.shared.pending = w :: rest ∧ _ ∧ Stamping d s.shared ts :=
    hk.at hpc
  have hhold : (s.tx t).pc.holding = true := by rw [hpc]; rfl
  have hholder := holder_eq h hhold
  have hdirty : versionIndex w.1 ∈ s.shared.dirty :=
    h.shape.covered w (by rw [hpending]; exact List.mem_cons_self)
  have he : Evolves versionIndex (core d s.shared)
      (core d (writeBack s.shared (s.tx t) w rest keys ts).1) := by
    refine .write (fun a ha => ?_) rfl rfl rfl rfl
    have hne : a ≠ w.1 := fun heq => ha (heq ▸ hdirty)
    simp [core, writeBack, hne]
  have hhere : ∀ pc, (pc = .stamp keys ts ∧ rest = [] ∨ pc = .writeBack rest keys ts) →
      Here d (writeBack s.shared (s.tx t) w rest keys ts).1 { s.tx t with pc := pc } := by
    rintro pc (⟨rfl, hnil⟩ | rfl)
    · exact ⟨hnil, hkeys, hstamping.clock, hstamping.above⟩
    · exact ⟨rfl, hkeys, hstamping.clock, hstamping.above⟩
  refine h.put (.inl hholder) he ?_ ?_ ?_
  · refine { h.shape with
      runs := ?_
      covered := fun u hu => h.shape.covered u (by rw [hpending]; exact List.mem_cons_of_mem w hu)
      idle := fun hnone => ?_ }
    · have hruns := h.shape.runs
      rw [hpending] at hruns
      exact hruns
    · have hnone : s.shared.holder = none := hnone
      rw [hholder] at hnone
      cases hnone
  · show s.shared.holder =
      if (if rest = [] then Pc.stamp keys ts else .writeBack rest keys ts).holding then some t
      else none
    rw [hholder]
    split <;> rfl
  · refine ⟨hk.buffered, hk.replayed, fun r hr => (hk.fresh r hr).evolves he, hk.listed,
      hk.noted, hk.stamped, hk.start, hk.begun, hhere _ ?_⟩
    split
    · next hnil => exact .inl ⟨rfl, hnil⟩
    · exact .inr rfl

theorem stamp_inv {a : Addr} {rest : List Addr} {ts : Word}
    (hpc : (s.tx t).pc = .stamp (a :: rest) ts) :
    (system T d m₀).Inv (s.put t (stamp d s.shared (s.tx t) a rest ts).1
      (stamp d s.shared (s.tx t) a rest ts).2) := by
  have hk : Knows d s.shared (s.tx t) := h.knows t
  obtain ⟨hpending, hkeys, hstamping⟩ : s.shared.pending = [] ∧
      (∀ ℓ ∈ s.shared.dirty, ℓ ∈ (a :: rest).map versionIndex) ∧ Stamping d s.shared ts := hk.at hpc
  have hhold : (s.tx t).pc.holding = true := by rw [hpc]; rfl
  have hholder := holder_eq h hhold
  have hlt : ts.toNat < d.limit := by
    rw [hstamping.clock]
    exact h.shape.room
  have hver : ∀ ℓ, readVersion d ((stamp d s.shared (s.tx t) a rest ts).1.table ℓ) =
      if ℓ = versionIndex a then ts else readVersion d (s.shared.table ℓ) := by
    intro ℓ
    simp only [stamp, Function.update_apply]
    split
    · exact readVersion_make hlt
    · rfl
  have hdirty : ∀ ℓ, ℓ ∈ (stamp d s.shared (s.tx t) a rest ts).1.dirty ↔
      ℓ ∈ s.shared.dirty ∧ ℓ ≠ versionIndex a := by
    intro ℓ
    simp [stamp]
  have hle : ∀ ℓ, (core d s.shared).ver ℓ ≤
      (core d (stamp d s.shared (s.tx t) a rest ts).1).ver ℓ := by
    intro ℓ
    show _ ≤ (readVersion d _).toNat
    rw [hver]
    split
    · rw [hstamping.clock]
      exact h.shape.ver_le ℓ
    · exact le_rfl
  have hcap : ∀ ℓ, (core d s.shared).cap ℓ ≤
      (core d (stamp d s.shared (s.tx t) a rest ts).1).cap ℓ := by
    intro ℓ
    by_cases hd : d = .leftright
    · have hsub : (stamp d s.shared (s.tx t) a rest ts).1.dirty ≠ [] → s.shared.dirty ≠ [] := by
        intro hne hnil
        obtain ⟨ℓ', hℓ'⟩ := List.exists_mem_of_ne_nil _ hne
        rw [hdirty, hnil] at hℓ'
        cases hℓ'.1
      simp only [core, if_pos hd]
      split
      · split
        · exact le_rfl
        · next hne => exact absurd ‹_› (hsub hne)
      · split <;> simp [stamp]
    · have hle := hle ℓ
      simp only [core, if_neg hd] at hle ⊢
      exact hle
  have he : Evolves versionIndex (core d s.shared)
      (core d (stamp d s.shared (s.tx t) a rest ts).1) := by
    refine .stamp rfl hle hcap (fun ℓ hℓ => ?_) rfl
    by_cases heq : ℓ = versionIndex a
    · refine .inr ?_
      show _ < (readVersion d _).toNat
      rw [hver, if_pos heq]
      exact hstamping.above ℓ hℓ
    · exact .inl ((hdirty ℓ).2 ⟨hℓ, heq⟩)
  refine h.put (.inl hholder) he ?_ ?_ ?_
  · refine { h.shape with
      covered := fun u hu => ?_
      idle := fun hnone => ?_
      ver_le := fun ℓ => ?_ }
    · have hu : u ∈ s.shared.pending := hu
      rw [hpending] at hu
      cases hu
    · have hnone : s.shared.holder = none := hnone
      rw [hholder] at hnone
      cases hnone
    · rw [hver]
      split
      · exact (congrArg BitVec.toNat hstamping.clock).le
      · exact h.shape.ver_le ℓ
  · show s.shared.holder = if (if rest = [] then Pc.release else .stamp rest ts).holding then some t
      else none
    rw [hholder]
    split <;> rfl
  · refine ⟨hk.buffered, hk.replayed, fun r hr => (hk.fresh r hr).evolves he, hk.listed,
      fun hd r hr => (hk.noted hd r hr).trans (hcap _), hk.stamped,
      fun hd ℓ => (hk.start hd ℓ).trans (hcap ℓ), hk.begun, ?_⟩
    have hrest : ∀ ℓ ∈ (stamp d s.shared (s.tx t) a rest ts).1.dirty, ℓ ∈ rest.map versionIndex :=
      fun ℓ hℓ => by
        obtain ⟨hℓ, hne⟩ := (hdirty ℓ).1 hℓ
        exact (List.mem_cons.1 (hkeys ℓ hℓ)).resolve_left hne
    by_cases hnil : rest = []
    · have hidle : (stamp d s.shared (s.tx t) a rest ts).1.dirty = [] := by
        refine List.eq_nil_iff_forall_not_mem.2 fun ℓ hℓ => ?_
        have hℓ := hrest ℓ hℓ
        rw [hnil] at hℓ
        cases hℓ
      simp only [stamp, hnil, if_true, Here]
      exact ⟨hpending, by simpa [stamp] using hidle⟩
    · simp only [stamp, hnil, if_false, Here]
      refine ⟨hpending, hrest, hstamping.clock, fun ℓ hℓ => ?_⟩
      obtain ⟨hℓ', hne⟩ := (hdirty ℓ).1 hℓ
      have habove := hstamping.above ℓ hℓ'
      by_cases hd : d = .leftright
      · have hne' : s.shared.dirty ≠ [] := List.ne_nil_of_mem hℓ'
        have hne'' : (stamp d s.shared (s.tx t) a rest ts).1.dirty ≠ [] := List.ne_nil_of_mem hℓ
        simp only [core, if_pos hd, if_neg hne'] at habove
        show (core d (stamp d s.shared (s.tx t) a rest ts).1).cap ℓ < _
        simp only [core, if_pos hd, if_neg hne'']
        exact habove
      · simp only [core, if_neg hd] at habove
        show (core d (stamp d s.shared (s.tx t) a rest ts).1).cap ℓ < _
        simp only [core, if_neg hd]
        rw [hver, if_neg hne]
        exact habove

theorem unlock_inv {result : Bool} (hpc : (s.tx t).pc.holding = true) (hidle : s.shared.Idle) :
    (system T d m₀).Inv (s.put t (unlock s.shared result).1 (unlock s.shared result).2) := by
  refine h.put (.inl (holder_eq h hpc)) (.of_eq rfl rfl rfl rfl rfl) ?_ rfl (Knows.finish d _ _)
  exact { h.shape with
    free := ⟨fun _ => rfl, fun _ => rfl⟩
    idle := fun _ => hidle }

theorem next_inv {c : Call} {q : Shared T × Tx} (hnext : next d t s.shared (s.tx t) c = some q)
    (hb : Bounded d s (t, c) s) (hq : d = .leftright → Quiet s (t, c) s) :
    (system T d m₀).Inv (s.put t q.1 q.2) := by
  have hk : Knows d s.shared (s.tx t) := h.knows t
  unfold next at hnext
  split at hnext <;> try cases hnext
  · next hpc => exact local_inv h hpc rfl (hk.goto trivial)
  · next hpc =>
      refine local_inv h hpc rfl (.blank rfl rfl rfl rfl rfl (fun hd ℓ => ?_) le_rfl trivial)
      have hdirty : s.shared.dirty = [] := by simpa [Quiet, hpc] using hq hd
      simp [core, hd, hdirty, Tx.begin]
  · next a hpc =>
      obtain ⟨hknows, hfalse⟩ := readWord_knows hk hpc a
      exact local_inv h hpc hfalse hknows
  · next a v hpc => exact local_inv h rfl rfl (writeWord_knows hk hpc a v)
  · next hpc => exact local_inv h hpc rfl (Knows.finish d _ _)
  · next keys hpc =>
      split at hnext
      · cases hnext
        exact commitReadOnly_inv h hpc
      · split at hnext <;> cases hnext
        · next hyields => exact local_inv h hpc rfl (hk.goto (yields_perm hyields))
  · next a hpc =>
      obtain ⟨hnone, hd⟩ : _ ∧ d ≠ .leftright := hk.at hpc
      have hcap : (readVersion d (s.shared.table (versionIndex a))).toNat =
          (core d s.shared).cap (versionIndex a) := by
        simp [core, hd]
      split
      · exact local_inv h hpc rfl (Knows.finish d _ _)
      · refine local_inv h hpc rfl (hk.goto ⟨hnone, fun _ => ⟨fun r hr ha => ?_, hcap.le⟩⟩)
        rw [hcap, ← ha]
        exact hk.noted hd r hr
  · next a entry hpc =>
      obtain ⟨hnone, hver⟩ : _ ∧ (d ≠ .leftright → _) := hk.at hpc
      unfold Tx.readValue
      split
      · refine local_inv h hpc rfl (noteRead_knows hk hnone (fun hd => absurd rfl hd) ?_)
        rw [if_pos rfl]
        exact ⟨hk.start rfl _, fun _ _ => rfl⟩
      · next hd =>
          obtain ⟨hnew, hle⟩ := hver hd
          exact local_inv h hpc rfl (hk.goto ⟨hnone, hd, hnew, hle, fun _ _ => rfl⟩)
  · next a entry val age hpc =>
      obtain ⟨hnone, hd, hnew, hfresh⟩ : _ ∧ d ≠ .leftright ∧ _ ∧ _ := hk.at hpc
      split
      · refine local_inv h hpc rfl (noteRead_knows hk hnone (fun _ => hnew) ?_)
        rw [if_neg hd]
        exact hfresh
      · exact local_inv h hpc rfl (Knows.finish d _ _)
  · next keys hpc => exact lock_inv h hpc
  · next keys hpc => exact lockSwap_inv h hpc
  · next c rest keys hpc =>
      obtain ⟨hkeys, hidle, hreads⟩ : _ ∧ s.shared.Idle ∧ _ := hk.at hpc
      split
      · next hpass =>
          obtain ⟨hknows, htrue⟩ := validateFrom_knows hk hkeys hidle fun r hr hrel =>
            due_of_passes hk hidle hpass hr (hreads r hr hrel)
          exact local_inv h hpc htrue hknows
      · exact local_inv h hpc rfl (hk.goto hidle)
  · next hpc => exact unlock_inv h (by rw [hpc]; rfl) (hk.at hpc)
  · next a rest keys hpc => exact setLocks_inv h hpc
  · next keys hpc => exact tick_inv h hpc (by simpa [Bounded, hpc] using hb)
  · next w rest keys ts hpc => exact writeBack_inv h hpc
  · next a rest ts hpc => exact stamp_inv h hpc
  · next hpc => exact unlock_inv h (by rw [hpc]; rfl) (hk.at hpc)

end Steps

end VersionTable
