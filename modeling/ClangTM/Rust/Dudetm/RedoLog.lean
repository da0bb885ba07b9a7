import Mathlib.Data.List.Forall2
import ClangTM.Rust.Memory
import ClangTM.Serial.RedoLog
import ClangTM.Transition.Run

/-!
# The redo log of the Rust backend `dudetm`

`REDO_LOG` belongs to a thread and outlives its transactions. The first write to an address puts
an entry, later ones do not; a commit puts a marker, and cuts the log after its thousandth marker
if it has become long. A transaction can end in five other ways, and each of them treats the log
differently: `tm_commit` of a transaction without writes leaves it alone, and so do a commit that
fails while it waits for a lock and a read that panics; a commit that fails its validation and
`tm_abort` clear it, with all the groups of earlier transactions.

What other threads do only shows in how `tm_commit` ends, which is part of the call. No step
reads `committed`: the writes of the transactions that have committed, in their order.
-/

namespace Rust.Dudetm

open Serial Transition

/-- `RedoEntry`: a data entry, or one with `commit_marker` set. -/
inductive Entry (V : Type)
  | data (a : Addr) (v : V)
  | marker
deriving DecidableEq

/-- What the redo log depends on of `TxState`. -/
structure TxState (V : Type) where
  writeSet : List (Addr × V) := []
  writeBacks : List (Addr × V) := []

/-- A thread: its log, its `TX`, and whether the body of a transaction is running. After a panic
`TX` is still there. -/
structure State (V : Type) where
  redoLog : List (Entry V) := []
  tx : Option (TxState V) := none
  running : Bool := false
  committed : List (List (Addr × V)) := []

/-- How the part of `tm_commit` that other threads have a say in ends: a failed validation
while it waits for a lock, a failed validation under all locks, or the write-back. -/
inductive Outcome
  | contended
  | invalid
  | valid
deriving DecidableEq

inductive Call (V : Type)
  | begin
  | write (a : Addr) (v : V)
  | readPanics
  | commit (outcome : Outcome)
  | abort

section Log

variable {V : Type}

def Entry.isMarker : Entry V → Bool
  | .data _ _ => false
  | .marker => true

/-- The log after its `n`th marker. -/
def afterMarkers : ℕ → List (Entry V) → Option (List (Entry V))
  | 0, log => some log
  | _ + 1, [] => none
  | n + 1, .data _ _ :: log => afterMarkers (n + 1) log
  | n + 1, .marker :: log => afterMarkers n log

/-- The trim at the end of `tm_commit`. -/
def trim (log : List (Entry V)) : List (Entry V) :=
  if 65536 < log.length then (afterMarkers 1000 log).getD log else log

def writeWord (s : State V) (t : TxState V) (a : Addr) (v : V) : State V :=
  { s with
    redoLog := if (t.writeSet.lookup a).isSome then s.redoLog else s.redoLog ++ [.data a v]
    tx := some ⟨putBack a v t.writeSet, t.writeBacks ++ [(a, v)]⟩ }

def tmCommit (s : State V) (t : TxState V) (outcome : Outcome) : State V :=
  let s' := { s with tx := none, running := false }
  if t.writeSet = [] then { s' with committed := s.committed ++ [[]] }
  else
    match outcome with
    | .contended => s'
    | .invalid => { s' with redoLog := [] }
    | .valid =>
        { s' with
          redoLog := trim (s.redoLog ++ [.marker])
          committed := s.committed ++ [t.writeBacks] }

/-- One call. A panic of `read_word` ends the body; `tm_abort` can follow it. -/
def step (s : State V) (c : Call V) : Option (State V) :=
  match s.running, s.tx, c with
  | false, _, .begin => some { s with tx := some {}, running := true }
  | true, some t, .write a v => some (writeWord s t a v)
  | true, some _, .readPanics => some { s with running := false }
  | true, some t, .commit outcome => some (tmCommit s t outcome)
  | _, some _, .abort => some { s with redoLog := [], tx := none, running := false }
  | _, _, _ => none

end Log

section Faithful

variable {V : Type}

/-- What the log is to have for a transaction with these writes: data entries that leave the
same memory, and a marker. -/
def IsGroup (ws : List (Addr × V)) (group : List (Entry V)) : Prop :=
  ws = [] ∧ group = [] ∨
    ws ≠ [] ∧ ∃ ds : List (Addr × V), group = ds.map (fun d => .data d.1 d.2) ++ [.marker] ∧
      ∀ m : Addr → V, writeAll m ds = writeAll m ws

def updates (cs : List (List (Addr × V))) : ℕ := cs.countP fun ws => !ws.isEmpty

/-- The log consists of the groups of the last transactions that have committed; if there were
earlier ones, of a thousand at least. -/
def Faithful (log : List (Entry V)) (committed : List (List (Addr × V))) : Prop :=
  ∃ earlier kept groups, committed = earlier ++ kept ∧ (earlier = [] ∨ 1000 ≤ updates kept) ∧
    List.Forall₂ IsGroup kept groups ∧ log = groups.flatten

/-- The conditions under which the log stays faithful: an address is not written again with
another value, a transaction with writes does not end in a panic or while it waits for a lock,
none is aborted or fails its validation once the log has a marker, and the trim leaves a thousand
markers. -/
def Kept (s : State V) (c : Call V) (_ : State V) : Prop :=
  match s.tx, c with
  | some t, .write a v => t.writeSet.lookup a = none ∨ t.writeSet.lookup a = some v
  | some t, .readPanics | some t, .commit .contended => t.writeSet = []
  | some t, .commit .invalid => t.writeSet = [] ∨ Entry.marker ∉ s.redoLog
  | some _, .commit .valid =>
      s.redoLog.length < 65536 ∨ s.redoLog.countP Entry.isMarker < 999 ∨
        1999 ≤ s.redoLog.countP Entry.isMarker
  | some _, .abort => Entry.marker ∉ s.redoLog
  | _, _ => True

instance [DecidableEq V] (s : State V) (c : Call V) (s' : State V) : Decidable (Kept s c s') := by
  unfold Kept
  split <;> infer_instance

variable {log : List (Entry V)} {cs kept : List (List (Addr × V))} {groups : List (List (Entry V))}

theorem countP_data (ds : List (Addr × V)) :
    (ds.map fun d => (.data d.1 d.2 : Entry V)).countP Entry.isMarker = 0 := by
  rw [List.countP_eq_zero]
  rintro _ hmem
  obtain ⟨d, -, rfl⟩ := List.mem_map.1 hmem
  simp [Entry.isMarker]

theorem countP_flatten (h : List.Forall₂ IsGroup kept groups) :
    groups.flatten.countP Entry.isMarker = updates kept := by
  induction h with
  | nil => rfl
  | @cons ws g _ _ hg _ ih =>
      rw [List.flatten_cons, List.countP_append, ih, updates, updates, List.countP_cons]
      rcases hg with ⟨rfl, rfl⟩ | ⟨hne, ds, rfl, -⟩
      · simp
      · rw [List.countP_append, countP_data]
        simp [Entry.isMarker, hne, Nat.add_comm]

theorem afterMarkers_data (n : ℕ) (ds : List (Addr × V)) (log : List (Entry V)) :
    afterMarkers (n + 1) ((ds.map fun d => .data d.1 d.2) ++ .marker :: log) =
      afterMarkers n log := by
  induction ds with
  | nil => rfl
  | cons d ds ih => exact ih

theorem groups_of_afterMarkers (h : List.Forall₂ IsGroup kept groups) {n : ℕ}
    {rest : List (Entry V)} (hrest : afterMarkers n groups.flatten = some rest) :
    ∃ dropped kept' groups', kept = dropped ++ kept' ∧ List.Forall₂ IsGroup kept' groups' ∧
      rest = groups'.flatten ∧ updates kept = n + updates kept' := by
  induction h generalizing n with
  | nil =>
      cases n with
      | zero => exact ⟨[], [], [], rfl, .nil, (Option.some.inj hrest).symm, rfl⟩
      | succ n => cases hrest
  | @cons ws g kept groups hg htail ih =>
      cases n with
      | zero =>
          rw [afterMarkers] at hrest
          exact ⟨[], _, _, rfl, .cons hg htail, (Option.some.inj hrest).symm, (Nat.zero_add _).symm⟩
      | succ n =>
          rw [List.flatten_cons] at hrest
          rcases hg with ⟨rfl, rfl⟩ | ⟨hne, ds, rfl, -⟩
          · obtain ⟨dropped, kept', groups', rfl, hgroups, heq, hcount⟩ := ih hrest
            exact ⟨[] :: dropped, kept', groups', rfl, hgroups, heq, hcount⟩
          · rw [List.append_assoc, List.singleton_append, afterMarkers_data] at hrest
            obtain ⟨dropped, kept', groups', rfl, hgroups, heq, hcount⟩ := ih hrest
            refine ⟨ws :: dropped, kept', groups', rfl, hgroups, heq, ?_⟩
            rw [updates, List.countP_cons_of_pos (by simpa using hne), ← updates, hcount]
            omega

namespace Faithful

theorem append (h : Faithful log cs) {ws : List (Addr × V)} {g : List (Entry V)}
    (hg : IsGroup ws g) : Faithful (log ++ g) (cs ++ [ws]) := by
  obtain ⟨earlier, kept, groups, rfl, hcount, hgroups, rfl⟩ := h
  refine ⟨earlier, kept ++ [ws], groups ++ [g], by simp, hcount.imp id fun hle => ?_,
    List.rel_append hgroups (.cons hg .nil), by simp⟩
  rw [updates, List.countP_append]
  exact Nat.le_add_right_of_le hle

theorem trim (h : Faithful log cs)
    (hcount : log.length ≤ 65536 ∨ log.countP Entry.isMarker < 1000 ∨
      2000 ≤ log.countP Entry.isMarker) : Faithful (trim log) cs := by
  unfold Dudetm.trim
  split
  · next hlen =>
      cases hafter : afterMarkers 1000 log with
      | none => exact h
      | some rest =>
          obtain ⟨earlier, kept, groups, rfl, -, hgroups, rfl⟩ := h
          rw [countP_flatten hgroups] at hcount
          obtain ⟨dropped, kept', groups', rfl, hgroups', rfl, hupdates⟩ :=
            groups_of_afterMarkers hgroups hafter
          exact ⟨earlier ++ dropped, kept', groups', by simp, .inr (by omega), hgroups', rfl⟩
  · exact h

theorem clear (h : Faithful log cs) (hmarker : Entry.marker ∉ log) : Faithful [] cs := by
  obtain ⟨earlier, kept, groups, rfl, hcount, hgroups, rfl⟩ := h
  have hzero : updates kept = 0 := by
    rw [← countP_flatten hgroups, List.countP_eq_zero]
    intro e he
    cases e with
    | data a v => simp [Entry.isMarker]
    | marker => exact absurd he hmarker
  have hnil : ∀ ws ∈ kept, ws = [] := by simpa [updates] using hzero
  refine ⟨earlier, kept, kept.map fun _ => [], rfl, by omega, ?_, by simp⟩
  rw [List.forall₂_map_right_iff, List.forall₂_same]
  exact fun ws hws => .inl ⟨hnil ws hws, rfl⟩

end Faithful

end Faithful

section Run

variable {V : Type}

/-- The entries of a transaction leave the memory that its writes leave. -/
structure Written (t : TxState V) (ds : List (Addr × V)) : Prop where
  same : ∀ m : Addr → V, writeAll m ds = writeAll m t.writeBacks
  value : ∀ a v, t.writeSet.lookup a = some v → ∀ m, writeAll m ds a = v
  empty : t.writeSet = [] ↔ t.writeBacks = []
  unlogged : t.writeSet = [] → ds = []

/-- The log: the groups of committed transactions, and the entries of the one that is running. -/
def Inv (s : State V) : Prop :=
  ∃ log ds, s.redoLog = log ++ ds.map (fun d => .data d.1 d.2) ∧ Faithful log s.committed ∧
    (s.running = false → ds = []) ∧ ∀ t, s.running = true → s.tx = some t → Written t ds

theorem Written.write {t : TxState V} {ds : List (Addr × V)} (h : Written t ds) {a : Addr} {v : V}
    (hsame : t.writeSet.lookup a = none ∨ t.writeSet.lookup a = some v) :
    Written ⟨putBack a v t.writeSet, t.writeBacks ++ [(a, v)]⟩
      (if (t.writeSet.lookup a).isSome then ds else ds ++ [(a, v)]) := by
  have hmem : ∀ m : Addr → V, writeAll m (t.writeBacks ++ [(a, v)]) =
      Function.update (writeAll m ds) a v := fun m => by
    rw [h.same, writeAll, List.foldl_append]
    rfl
  have hne : putBack a v t.writeSet ≠ [] := by
    intro hnil
    have hlookup := lookup_putBack a a v t.writeSet
    rw [hnil, if_pos rfl] at hlookup
    cases hlookup
  cases hw : t.writeSet.lookup a with
  | some w =>
      obtain rfl : w = v := by simpa [hw] using hsame
      refine ⟨fun m => ?_, fun b u hb m => ?_, by simp [hne], fun hnil => absurd hnil hne⟩
      · rw [hmem]
        exact (Function.update_eq_self_iff.2 (h.value a w hw m).symm).symm
      · rw [lookup_putBack] at hb
        split at hb
        · next heq =>
            cases hb
            rw [heq]
            exact h.value a w hw m
        · exact h.value b u hb m
  | none =>
      have hds : ∀ m : Addr → V, writeAll m (ds ++ [(a, v)]) =
          Function.update (writeAll m ds) a v := fun m => by
        rw [writeAll, List.foldl_append]
        rfl
      refine ⟨fun m => (hds m).trans (hmem m).symm, fun b u hb m => ?_, by simp [hne],
        fun hnil => absurd hnil hne⟩
      rw [lookup_putBack] at hb
      show writeAll m (ds ++ [(a, v)]) b = u
      rw [hds, Function.update_apply]
      split at hb
      · next heq =>
          cases hb
          rw [if_pos heq]
      · next hne =>
          rw [if_neg hne]
          exact h.value b u hb m

theorem commit_inv {s : State V} (h : Inv s) {t : TxState V} {outcome : Outcome}
    (hrun : s.running = true) (htx : s.tx = some t)
    (hkept : Kept s (.commit outcome) (tmCommit s t outcome)) : Inv (tmCommit s t outcome) := by
  obtain ⟨log, ds, hlog, hfaithful, -, hwritten⟩ := h
  have hwritten := hwritten t hrun htx
  unfold Kept at hkept
  rw [htx] at hkept
  unfold tmCommit
  by_cases hnil : t.writeSet = []
  · obtain rfl := hwritten.unlogged hnil
    rw [if_pos hnil]
    refine ⟨log, [], hlog, ?_, fun _ => rfl, fun t hrun => by cases hrun⟩
    rw [← List.append_nil log]
    exact hfaithful.append (.inl ⟨rfl, rfl⟩)
  · rw [if_neg hnil]
    cases outcome with
    | contended => exact absurd hkept hnil
    | invalid =>
        have hmarker : Entry.marker ∉ log := fun hmem =>
          hkept.resolve_left hnil (by rw [hlog]; exact List.mem_append_left _ hmem)
        exact ⟨[], [], rfl, hfaithful.clear hmarker, fun _ => rfl, fun t hrun => by cases hrun⟩
    | valid =>
        refine ⟨trim (s.redoLog ++ [.marker]), [], by simp, Faithful.trim ?_ ?_, fun _ => rfl,
          fun t hrun => by cases hrun⟩
        · rw [hlog, List.append_assoc]
          exact hfaithful.append (.inr ⟨fun hback => hnil (hwritten.empty.2 hback), ds, rfl,
            hwritten.same⟩)
        · rw [List.length_append, List.countP_append]
          simp only [List.length_singleton, List.countP_singleton, Entry.isMarker, if_true]
          rcases hkept with hlen | hlt | hle <;> omega

theorem step_inv {s s' : State V} {c : Call V} (h : Inv s) (hs : step s c = some s')
    (hkept : Kept s c s') : Inv s' := by
  unfold step at hs
  split at hs
  · next hrun =>
      cases hs
      obtain ⟨log, ds, hlog, hfaithful, hidle, -⟩ := h
      obtain rfl := hidle hrun
      refine ⟨log, [], hlog, hfaithful, fun _ => rfl, fun t _ htx => ?_⟩
      obtain rfl := Option.some.inj htx
      exact ⟨fun _ => rfl, fun a v hv => (by cases hv), ⟨fun _ => rfl, fun _ => rfl⟩, fun _ => rfl⟩
  · next t a v hrun htx =>
      cases hs
      obtain ⟨log, ds, hlog, hfaithful, -, hwritten⟩ := h
      refine ⟨log, if (t.writeSet.lookup a).isSome then ds else ds ++ [(a, v)], ?_, hfaithful,
        fun hfalse => absurd (hrun.symm.trans hfalse) (by simp), fun t' _ htx' => ?_⟩
      · unfold writeWord
        dsimp only
        split
        · exact hlog
        · rw [hlog, List.map_append, List.append_assoc]
          rfl
      · obtain rfl := Option.some.inj htx'
        unfold Kept at hkept
        rw [htx] at hkept
        exact (hwritten t hrun htx).write hkept
  · next t hrun htx =>
      cases hs
      obtain ⟨log, ds, hlog, hfaithful, -, hwritten⟩ := h
      unfold Kept at hkept
      rw [htx] at hkept
      exact ⟨log, ds, hlog, hfaithful, fun _ => (hwritten t hrun htx).unlogged hkept,
        fun t hrun => by cases hrun⟩
  · next t outcome hrun htx =>
      cases hs
      exact commit_inv h hrun htx hkept
  · next t htx =>
      cases hs
      obtain ⟨log, ds, hlog, hfaithful, -, -⟩ := h
      unfold Kept at hkept
      rw [htx] at hkept
      have hmarker : Entry.marker ∉ log := fun hmem =>
        hkept (by rw [hlog]; exact List.mem_append_left _ hmem)
      exact ⟨[], [], rfl, hfaithful.clear hmarker, fun _ => rfl, fun t hrun => by cases hrun⟩
  · cases hs

/-- In the runs that meet the conditions the log is faithful between transactions. -/
theorem faithful_of_kept {s : State V} (hr : Run step Kept {} s) (hidle : s.running = false) :
    Faithful s.redoLog s.committed := by
  have hinit : Inv ({} : State V) :=
    ⟨[], [], rfl, ⟨[], [], [], rfl, .inl rfl, .nil, rfl⟩, fun _ => rfl, fun t hrun => by cases hrun⟩
  obtain ⟨log, ds, hlog, hfaithful, hds, -⟩ :=
    hr.induction_on hinit fun s₁ c s₂ _ h hs hkept => step_inv h hs hkept
  rw [hds hidle, List.map_nil, List.append_nil] at hlog
  rw [hlog]
  exact hfaithful

end Run

/-- A transaction that writes an address twice, and one that reads only. -/
theorem faithful_of_kept_two : ∃ s : State Word, Run step Kept {} s ∧ s.running = false ∧
    s.redoLog = [.data 8 1, .marker] ∧ s.committed = [[(8, 1), (8, 1)], []] ∧
      Faithful s.redoLog s.committed := by
  obtain ⟨s, hr, hidle, hlog, hcommitted⟩ : ∃ s : State Word, Run step Kept {} s ∧
      s.running = false ∧ s.redoLog = [.data 8 1, .marker] ∧
      s.committed = [[(8, 1), (8, 1)], []] :=
    exists_run_of_exec
      [.begin, .write 8 1, .write 8 1, .commit .valid, .begin, .commit .contended]
      (by decide +kernel)
  exact ⟨s, hr, hidle, hlog, hcommitted, faithful_of_kept hr hidle⟩

/-- An address is written twice: the log has the first value. -/
theorem not_faithful_of_rewrite : ∃ s : State Word, Run step anyStep {} s ∧ s.running = false ∧
    ¬Faithful s.redoLog s.committed := by
  obtain ⟨s, hr, hidle, hlog, hcommitted⟩ : ∃ s : State Word, Run step anyStep {} s ∧
      s.running = false ∧ s.redoLog = [.data 8 1, .marker] ∧ s.committed = [[(8, 1), (8, 2)]] :=
    exists_run_of_exec [.begin, .write 8 1, .write 8 2, .commit .valid] (by decide +kernel)
  refine ⟨s, hr, hidle, fun ⟨earlier, kept, groups, hkept, _, hgroups, heq⟩ => ?_⟩
  rw [hcommitted] at hkept
  rw [hlog] at heq
  cases earlier with
  | nil =>
      obtain rfl := hkept
      cases hgroups with
      | cons hg htail =>
          cases htail
          rcases hg with ⟨hnil, -⟩ | ⟨-, ds, rfl, hsame⟩
          · cases hnil
          · rcases ds with _ | ⟨d, _ | ⟨d', ds⟩⟩
            · cases heq
            · obtain ⟨a, v⟩ := d
              obtain ⟨rfl, rfl⟩ : 8 = a ∧ 1 = v := by simpa using heq
              exact absurd (congrFun (hsame fun _ => 0) 8) (by decide)
            · simp at heq
  | cons c earlier =>
      obtain ⟨-, hnil⟩ := List.cons.inj hkept
      obtain ⟨-, rfl⟩ := List.append_eq_nil_iff.1 hnil.symm
      cases hgroups
      cases heq

end Rust.Dudetm
