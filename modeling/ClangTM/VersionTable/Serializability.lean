import Mathlib.Data.Fintype.Basic
import ClangTM.VersionTable.Steps

/-!
# What the version-table backends guarantee

In Romulus and XTM the committed transactions with writes are a serial run in the order in which
they held the commit lock, as long as the clock does not wrap. A transaction without writes is
not validated; if it were, at the end and under the lock, it would be part of the serial run.

`leftright` loses no update as long as no transaction begins while another one writes back.
-/

namespace VersionTable

open Serial Transition CommitLock
open Rust (Addr)

section Run

variable {T : Type} [DecidableEq T] {d : Variant} {m₀ : Addr → Word} {s : Threads (Shared T) Tx T}

omit [DecidableEq T] in
theorem inv_init (d : Variant) (m₀ : Addr → Word) : (system T d m₀).Inv (init T m₀) where
  shape :=
    { runs := rfl
      own := fun e he => by cases he
      covered := fun w hw => by cases hw
      free := ⟨fun _ => rfl, fun _ => rfl⟩
      idle := fun _ => ⟨rfl, rfl⟩
      ver_le := fun ℓ => (by cases d <;> decide : (readVersion d 0).toNat ≤ 1)
      room := (by cases d <;> decide : 1 < d.limit)
      ro := fun _ r hr => by cases hr }
  holder t := by simp [system, init, core, Pc.holding]
  knows t := .blank rfl rfl rfl rfl rfl (fun _ _ => Nat.zero_le _) le_rfl trivial

theorem inv_run {ok : Threads (Shared T) Tx T → T × Call → Threads (Shared T) Tx T → Prop}
    (hok : ∀ s l s', ok s l s' → Bounded d s l s' ∧ (d = .leftright → Quiet s l s'))
    (hr : Run (step d) ok (init T m₀) s) : (system T d m₀).Inv s := by
  refine hr.induction_on (inv_init d m₀) fun s₁ l s₂ _ h hs hstep => ?_
  obtain ⟨σ, x, hnext, rfl⟩ := Threads.step_eq_some hs
  obtain ⟨hb, hq⟩ := hok _ _ _ hstep
  exact next_inv h hnext hb hq

/-- The committed transactions of Romulus and XTM that write are a serial run in the order in
which they held the commit lock, and it leads to memory whenever the lock is free. -/
theorem serial_in_lock_order (hd : d ≠ .leftright) (m₀ : Addr → Word)
    (hr : Run (step d) (Bounded d) (init T m₀) s) :
    ∃ m, SerialRun m₀ (s.shared.log.map Commit.ops) m ∧
      (s.shared.commitLock = 0 → s.shared.mem = m) := by
  have h : Shape d m₀ s.shared := (inv_run (fun _ _ _ hb => ⟨hb, fun h => absurd h hd⟩) hr).shape
  have hruns := h.runs
  rw [Certified, if_neg hd] at hruns
  refine ⟨_, hruns.serialRun, fun hfree => ?_⟩
  rw [(h.idle (h.free.1 hfree)).1]
  rfl

/-- Two transactions that count up a word, the second of them after an abort. -/
theorem serial_in_lock_order_two : ∃ s : Threads (Shared (Fin 2)) Tx (Fin 2),
    Run (step .romulusCpp) (Bounded .romulusCpp) (init (Fin 2) fun _ => 0) s ∧
      s.shared.log.map Commit.ops = [[.write 8 1, .read 8 0], [.write 8 2, .read 8 1]] ∧
      ∃ m, SerialRun (fun _ => 0) (s.shared.log.map Commit.ops) m := by
  obtain ⟨s, hr, hlog⟩ : ∃ s : Threads (Shared (Fin 2)) Tx (Fin 2),
      Run (step .romulusCpp) (Bounded .romulusCpp) (init (Fin 2) fun _ => 0) s ∧
        s.shared.log.map Commit.ops = [[.write 8 1, .read 8 0], [.write 8 2, .read 8 1]] :=
    exists_run_of_exec
      (.flatten [
        Threads.calls 0 [.begin, .tau, .read 8, .tau, .tau, .tau, .write 8 1],
        Threads.calls 1 [.begin, .tau, .read 8, .tau, .tau, .tau, .write 8 1, .commit [8]],
        Threads.calls 0 (.commit [8] :: .replicate 9 .tau),
        Threads.calls 1 [.tau, .tau, .tau, .tau],
        Threads.calls 1 [.begin, .tau, .read 8, .tau, .tau, .tau, .write 8 2, .commit [8]],
        Threads.calls 1 (.replicate 9 .tau)])
      (by decide +kernel)
  obtain ⟨m, hserial, -⟩ := serial_in_lock_order (by decide) _ hr
  exact ⟨s, hr, hlog, m, hserial⟩

section Wrap

variable {s : Threads (Shared (Fin 2)) Tx (Fin 2)}

def setsFirst (t : Fin 2) : List (Fin 2 × Call) :=
  Threads.calls t
    [.begin, .tau, .write 8 1, .commit [8], .tau, .tau, .tau, .tau, .tau, .tau]

/-- It commits if the lock is free and the version of the word is not above the clock. -/
theorem exec_setsFirst (hpc : (s.tx 1).pc = .out) (hlock : s.shared.commitLock = 0)
    (hver : (s.shared.table (versionIndex 8)).toNat ≤ s.shared.gClock.toNat) :
    ∃ s', exec (step .xtm) anyStep s (setsFirst 1) = some s' ∧ (s'.tx 1).pc = .out ∧
      s'.tx 0 = s.tx 0 ∧ s'.shared.commitLock = 0 ∧ s'.shared.gClock = s.shared.gClock + 1 ∧
      s'.shared.table =
        Function.update s.shared.table (versionIndex 8) (s.shared.gClock + 1) ∧
      s'.shared.log.map Commit.ops = s.shared.log.map Commit.ops ++ [[.write 8 1]] := by
  obtain ⟨⟨clock, lock, table, mem, count, holder, pending, dirty, log, ro⟩, tx⟩ := s
  obtain rfl : lock = 0 := hlock
  let σ : Shared (Fin 2) := ⟨clock, 0, table, mem, count, holder, pending, dirty, log, ro⟩
  let σ' : Shared (Fin 2) := { σ with commitLock := 1, holder := some 1 }
  let x : Tx :=
    { pc := .validate [.write 8] [8], timestamp := clock, writeSet := [(8, 1)]
      writeBacks := [(8, 1)], ops := [.write 8 1], begun := log.length }
  have hbegin : next .xtm 1 σ (tx 1) .begin = some (σ, { tx 1 with pc := .beginClock }) := by
    simp only [next, show (tx 1).pc = .out from hpc]
  have hvalidate : next .xtm 1 σ' x .tau = some (σ', { x with pc := .tick [8] }) := by
    have hpasses : x.passes .xtm (.write 8) (table (versionIndex 8)) = true := decide_eq_true hver
    exact congrArg (fun y => some (σ', y)) (if_pos hpasses)
  rw [setsFirst, step, Threads.calls]
  simp only [List.map_cons, List.map_nil]
  rw [Threads.exec_cons_of_next hbegin,
    Threads.exec_put (by rfl), Threads.exec_put (by rfl), Threads.exec_put (by rfl),
    Threads.exec_put (σ := σ') (x := x) (by rfl),
    Threads.exec_put (by exact hvalidate),
    Threads.exec_put (by rfl), Threads.exec_put (by rfl), Threads.exec_put (by rfl),
    Threads.exec_put (by rfl), exec_nil]
  refine ⟨_, rfl, ?_, Threads.put_tx_of_ne (by decide), rfl, rfl, rfl, ?_⟩
  · rw [Threads.put_tx_self]
    rfl
  · exact List.map_append

theorem run_setsFirst (hpc : (s.tx 1).pc = .out) (hlock : s.shared.commitLock = 0)
    (hver : (s.shared.table (versionIndex 8)).toNat ≤ s.shared.gClock.toNat) (n : ℕ) :
    ∃ s' log, Run (step .xtm) anyStep s s' ∧ (s'.tx 1).pc = .out ∧ s'.tx 0 = s.tx 0 ∧
      s'.shared.commitLock = 0 ∧ s'.shared.gClock = s.shared.gClock + BitVec.ofNat 64 (n + 1) ∧
      s'.shared.table = Function.update s.shared.table (versionIndex 8) s'.shared.gClock ∧
      s'.shared.log.map Commit.ops = log ++ [[.write 8 1]] := by
  induction n with
  | zero =>
      obtain ⟨s', hs, hpc', htx, hlock', hclock, htable, hlog⟩ := exec_setsFirst hpc hlock hver
      exact ⟨s', _, run_of_exec hs, hpc', htx, hlock', hclock, by rw [htable, hclock], hlog⟩
  | succ n ih =>
      obtain ⟨s₁, -, hr, hpc₁, htx₁, hlock₁, hclock₁, htable₁, -⟩ := ih
      have hver₁ : (s₁.shared.table (versionIndex 8)).toNat ≤ s₁.shared.gClock.toNat := by
        rw [htable₁, Function.update_self]
      obtain ⟨s', hs, hpc', htx, hlock', hclock, htable, hlog⟩ := exec_setsFirst hpc₁ hlock₁ hver₁
      refine ⟨s', _, hr.trans (run_of_exec hs), hpc', htx.trans htx₁, hlock', ?_, ?_, hlog⟩
      · rw [hclock, hclock₁, BitVec.add_assoc, show (1 : Word) = BitVec.ofNat 64 1 from rfl,
          ← BitVec.ofNat_add]
      · rw [htable, htable₁, Function.update_idem, hclock]

/-- Thread 0 writes another word and commits, every version being what it was at the start. -/
theorem exec_commitSecond
    (hx : s.tx 0 =
      { pc := .body, timestamp := 1, readSet := [(8, 0)], ops := [.read 8 0]
        reads := [⟨8, 0, (0, 0)⟩] })
    (hlock : s.shared.commitLock = 0) (htable : s.shared.table = fun _ => 0) :
    ∃ s', exec (step .xtm) anyStep s
        (Threads.calls 0 [.write 16 1, .commit [16], .tau, .tau, .tau, .tau]) = some s' ∧
      s'.shared.log.map Commit.ops = s.shared.log.map Commit.ops ++ [[.write 16 1, .read 8 0]] := by
  obtain ⟨⟨clock, lock, table, mem, count, holder, pending, dirty, log, ro⟩, tx⟩ := s
  obtain rfl : lock = 0 := hlock
  obtain rfl : table = fun _ => 0 := htable
  rw [step, Threads.calls]
  simp only [List.map_cons, List.map_nil]
  rw [Threads.exec_cons_of_next (by rw [hx]; rfl),
    Threads.exec_put (by rfl), Threads.exec_put (by rfl), Threads.exec_put (by rfl),
    Threads.exec_put (by rfl),
    Threads.exec_put (by rfl), exec_nil]
  exact ⟨_, rfl, List.map_append⟩

/-- The clock wraps: after `2 ^ 64 - 1` writers the version of the word is 0 again, and a
transaction that read before them passes its validation. -/
theorem not_serial_after_clock_wrap : ∃ s : Threads (Shared (Fin 2)) Tx (Fin 2),
    Run (step .xtm) anyStep (init (Fin 2) fun _ => 0) s ∧
      ¬∃ m, SerialRun (fun _ => 0) (s.shared.log.map Commit.ops) m := by
  obtain ⟨s₁, h₁, hpc₁, hlock₁, hclock₁, htable₁, hx₁⟩ :
      ∃ s₁, exec (step .xtm) anyStep (init (Fin 2) fun _ => 0)
          (Threads.calls 0 [.begin, .tau, .read 8, .tau, .tau, .tau]) = some s₁ ∧
        (s₁.tx 1).pc = .out ∧ s₁.shared.commitLock = 0 ∧ s₁.shared.gClock = 1 ∧
        s₁.shared.table = (fun _ => 0) ∧
        s₁.tx 0 =
          { pc := .body, timestamp := 1, readSet := [(8, 0)], ops := [.read 8 0]
            reads := [⟨8, 0, (0, 0)⟩] } :=
    ⟨_, rfl, rfl, rfl, rfl, rfl, rfl⟩
  have hver : (s₁.shared.table (versionIndex 8)).toNat ≤ s₁.shared.gClock.toNat := by
    rw [htable₁]
    exact Nat.zero_le _
  obtain ⟨s₂, log, h₂, -, hx₂, hlock₂, hclock₂, htable₂, hlog₂⟩ :=
    run_setsFirst hpc₁ hlock₁ hver (2 ^ 64 - 2)
  have hzero : s₂.shared.gClock = 0 := by
    simp [hclock₂, hclock₁]
  rw [htable₁, hzero, Function.update_eq_self_iff.2 rfl] at htable₂
  obtain ⟨s₃, h₃, hlog₃⟩ := exec_commitSecond (hx₂.trans hx₁) hlock₂ htable₂
  refine ⟨s₃, ((run_of_exec h₁).trans h₂).trans (run_of_exec h₃), fun ⟨m, hm⟩ => ?_⟩
  rw [hlog₃, hlog₂, List.append_assoc] at hm
  obtain ⟨m₁, -, -, hread, -⟩ := exists_of_serialRun_append hm
  exact absurd hread.1 (by decide : (1 : Word) ≠ 0)

end Wrap

/-- A transaction without writes that ends with the lock free and the versions as it noted them
has read from one memory between its begin and its end. -/
theorem coexisted_of_settled (hd : d ≠ .leftright) (hr : Run (step d) (Bounded d) (init T m₀) s)
    {r : ReadOnly Addr Word} (hmem : r ∈ s.shared.ro) (hsettled : r.settled = true) :
    Coexisted m₀ (s.shared.log.map Commit.ops) r :=
  (inv_run (fun _ _ _ hb => ⟨hb, fun h => absurd h hd⟩) hr).shape.ro hd r hmem hsettled

end Run

section LeftRight

variable {T : Type} [DecidableEq T] {m₀ : Addr → Word} {s : Threads (Shared T) Tx T}

/-- The runs of `leftright` in which the clock does not wrap and no transaction begins during a
write-back. -/
def Orderly (s : Threads (Shared T) Tx T) (l : T × Call) (s' : Threads (Shared T) Tx T) : Prop :=
  Bounded .leftright s l s' ∧ Quiet s l s'

instance (s : Threads (Shared T) Tx T) (l : T × Call) (s' : Threads (Shared T) Tx T) :
    Decidable (Orderly s l s') :=
  inferInstanceAs (Decidable (_ ∧ _))

theorem iterate_add_one (v : Word) (n : ℕ) : (· + 1)^[n] v = v + BitVec.ofNat 64 n := by
  induction n with
  | zero => simp
  | succ n ih =>
      rw [Function.iterate_succ_apply', ih, BitVec.add_assoc, BitVec.ofNat_add]
      rfl

/-- In an orderly run of `leftright` no word that a transaction has read before writing it has
been written since by the time it commits, and a word that is only counted up is counted up once
for every transaction. -/
theorem no_lost_update_of_orderly (m₀ : Addr → Word)
    (hr : Run (step .leftright) Orderly (init T m₀) s) :
    (∀ e ∈ s.shared.log, ∀ r ∈ e.reads, lastWrite e.ops r.addr ≠ none →
      e.before r.addr = r.val) ∧
    ∀ a, (∀ e ∈ s.shared.log, lastWrite e.ops a = none ∨
        ∃ v, (a, v) ∈ external e.ops ∧ lastWrite e.ops a = some (v + 1)) →
      s.shared.commitLock = 0 →
      s.shared.mem a =
        m₀ a + BitVec.ofNat 64 (s.shared.log.countP fun e => (lastWrite e.ops a).isSome) := by
  have h : Shape .leftright m₀ s.shared := (inv_run (fun _ _ _ h => ⟨h.1, fun _ => h.2⟩) hr).shape
  refine ⟨h.own, fun a hcount hfree => ?_⟩
  have hruns : RunsWith LegalOwn m₀ _ _ := h.runs
  rw [(h.idle (h.free.1 hfree)).1] at hruns
  have heq := hruns.eq_iterate (a := a) (f := (· + 1)) fun t ht => by
    obtain ⟨e, he, rfl⟩ := List.mem_map.1 ht
    exact hcount e he
  rw [iterate_add_one, List.countP_map] at heq
  exact heq

/-- Two transactions count up a word; the second one begins while the first one commits, fails,
and is repeated. -/
theorem no_lost_update_of_orderly_two : ∃ s : Threads (Shared (Fin 2)) Tx (Fin 2),
    Run (step .leftright) Orderly (init (Fin 2) fun _ => 0) s ∧
      s.shared.log.map Commit.ops = [[.write 8 1, .read 8 0], [.write 8 2, .read 8 1]] ∧
      s.shared.commitLock = 0 ∧
      ∀ e ∈ s.shared.log, ∀ r ∈ e.reads, lastWrite e.ops r.addr ≠ none →
        e.before r.addr = r.val := by
  obtain ⟨s, hr, hlog, hlock⟩ : ∃ s : Threads (Shared (Fin 2)) Tx (Fin 2),
      Run (step .leftright) Orderly (init (Fin 2) fun _ => 0) s ∧
        s.shared.log.map Commit.ops = [[.write 8 1, .read 8 0], [.write 8 2, .read 8 1]] ∧
        s.shared.commitLock = 0 :=
    exists_run_of_exec
      (.flatten [
        Threads.calls 0 [.begin, .tau, .read 8, .tau, .write 8 1, .commit [8]],
        Threads.calls 1 [.begin, .tau, .read 8, .tau, .write 8 1, .commit [8]],
        Threads.calls 0 [.tau, .tau, .tau, .tau, .tau, .tau], Threads.calls 1 [.tau, .tau, .tau],
        Threads.calls 1 [.begin, .tau, .read 8, .tau, .write 8 2, .commit [8]],
        Threads.calls 1 [.tau, .tau, .tau, .tau, .tau, .tau]])
      (by decide +kernel)
  exact ⟨s, hr, hlog, hlock, (no_lost_update_of_orderly _ hr).1⟩

/-- Thread 1 begins after the clock tick of thread 0 and reads the counter before it is written
back: its begin has the version of the commit under way, and one of the two updates is lost. -/
theorem lost_update_of_begin_during_write_back : ∃ s : Threads (Shared (Fin 2)) Tx (Fin 2),
    Run (step .leftright) anyStep (init (Fin 2) fun _ => 0) s ∧
      (s.tx 0).committed = some true ∧ (s.tx 1).committed = some true ∧
      s.shared.log.map Commit.ops = [[.write 8 1, .read 8 0], [.write 8 1, .read 8 0]] ∧
      s.shared.mem 8 = 1 := by
  exact exists_run_of_exec
    (.flatten [
      Threads.calls 0 [.begin, .tau, .read 8, .tau, .write 8 1, .commit [8], .tau, .tau, .tau],
      Threads.calls 1 [.begin, .tau, .read 8, .tau, .write 8 1], Threads.calls 0 [.tau, .tau, .tau],
      Threads.calls 1 [.commit [8], .tau, .tau, .tau, .tau, .tau, .tau]])
    (by decide +kernel)

end LeftRight

end VersionTable
