import ClangTM.Rust.Nvhtm.Serializability
import ClangTM.VersionTable.Serializability

/-!
# Transactions without writes

In `romulus`, `xtm`, `nvhtm` and `spht` a transaction without writes commits without a look at
what it has read. Each of its reads was checked by itself, and `nvhtm` and `spht` compare versions
that count the commits of a lock with a clock that counts all commits twice; two reads on either
side of a commit pass these checks.

What it takes is what the others are asked for: at its end no commit is under way, and the
versions are those it has noted.
-/

namespace Rust

open Serial Transition

/-- A transaction without writes that at its end finds the commit lock free and the versions it
noted has read values that were in memory together, between two commits, since it began. -/
theorem snapshot_of_settled (T : Type) [DecidableEq T] (m₀ : Addr → Word) :
    (∀ d, d = .romulus ∨ d = .xtm → ∀ s,
      Run (VersionTable.step d) (VersionTable.Bounded d) (VersionTable.init T m₀) s →
        ∀ r ∈ s.shared.ro, r.settled = true →
          Coexisted m₀ (s.shared.log.map VersionTable.Commit.ops) r) ∧
    ∀ d s, Run (Nvhtm.step d) Nvhtm.Bounded (Nvhtm.init T m₀) s →
      ∀ r ∈ s.shared.ro, r.settled = true → Coexisted m₀ s.shared.log r := by
  refine ⟨fun d hd s hr r hmem hsettled => ?_, fun d s hr r hmem hsettled => ?_⟩
  · have hne : d ≠ .leftright := by rcases hd with rfl | rfl <;> decide
    exact VersionTable.coexisted_of_settled hne hr hmem hsettled
  · exact Nvhtm.coexisted_of_settled hr hmem hsettled

/-- A transaction that reads two words after another one has set them. -/
theorem snapshot_of_settled_two : ∃ s : Threads (Nvhtm.Shared (Fin 2)) Nvhtm.Tx (Fin 2),
    Run (Nvhtm.step .nvhtm) Nvhtm.Bounded (Nvhtm.init (Fin 2) fun _ => 0) s ∧
      ∃ r ∈ s.shared.ro, r.ops = [.read 0x100008 1, .read 0x100000 1] ∧ r.settled = true ∧
        Coexisted (fun _ => 0) s.shared.log r := by
  obtain ⟨s, hr, r, hmem, hops, hsettled⟩ :
      ∃ s : Threads (Nvhtm.Shared (Fin 2)) Nvhtm.Tx (Fin 2),
        Run (Nvhtm.step .nvhtm) Nvhtm.Bounded (Nvhtm.init (Fin 2) fun _ => 0) s ∧
          ∃ r ∈ s.shared.ro, r.ops = [.read 0x100008 1, .read 0x100000 1] ∧ r.settled = true :=
    exists_run_of_exec
      (.flatten [
        Threads.calls 0 [.begin, .tau, .write 0x100000 1, .write 0x100008 1, .commit],
        Threads.calls 0 (.replicate 13 .tau),
        Threads.calls 1 [.begin, .tau, .read 0x100000, .tau, .tau, .tau, .tau, .read 0x100008,
          .tau, .tau, .tau, .tau, .commit]])
      (by decide +kernel)
  exact ⟨s, hr, r, hmem, hops, hsettled, (snapshot_of_settled (Fin 2) _).2 _ s hr r hmem hsettled⟩

/-- Thread 1 reads a word, thread 0 sets it and another one, and thread 1 reads the other one and
commits: in `xtm`, and in `nvhtm` if a commit has advanced the clock before. -/
theorem not_snapshot_of_commit_between :
    (∃ s : Threads (VersionTable.Shared (Fin 2)) VersionTable.Tx (Fin 2),
      Run (VersionTable.step .xtm) anyStep (VersionTable.init (Fin 2) fun _ => 0) s ∧
        (s.tx 1).committed = some true ∧
        ∃ r ∈ s.shared.ro, ¬Coexisted (fun _ => 0) (s.shared.log.map VersionTable.Commit.ops) r) ∧
    ∃ s : Threads (Nvhtm.Shared (Fin 2)) Nvhtm.Tx (Fin 2),
      Run (Nvhtm.step .nvhtm) anyStep (Nvhtm.init (Fin 2) fun _ => 0) s ∧
        (s.tx 1).committed = some true ∧
        ∃ r ∈ s.shared.ro, ¬Coexisted (fun _ => 0) s.shared.log r := by
  constructor
  · obtain ⟨s, hr, hcommitted, hlog, r, hmem, hr₁, hr₂, hops⟩ :
        ∃ s : Threads (VersionTable.Shared (Fin 2)) VersionTable.Tx (Fin 2),
          Run (VersionTable.step .xtm) anyStep (VersionTable.init (Fin 2) fun _ => 0) s ∧
            (s.tx 1).committed = some true ∧
            s.shared.log.map VersionTable.Commit.ops = [[.write 16 1, .write 8 1]] ∧
            ∃ r ∈ s.shared.ro, r.begun = 0 ∧ r.ended = 1 ∧ r.ops = [.read 16 1, .read 8 0] :=
      exists_run_of_exec
        (.flatten [
          Threads.calls 1 [.begin, .tau, .read 8, .tau, .tau, .tau],
          Threads.calls 0 [.begin, .tau, .write 8 1, .write 16 1, .commit [8, 16]],
          Threads.calls 0 (.replicate 9 .tau),
          Threads.calls 1 [.read 16, .tau, .tau, .tau, .commit []]])
        (by decide +kernel)
    refine ⟨s, hr, hcommitted, r, hmem, fun ⟨k, hbegun, hended, _, m, hrun, hlegal⟩ => ?_⟩
    rw [hlog] at hrun
    rw [hops] at hlegal
    obtain rfl | rfl : k = 0 ∨ k = 1 := by omega
    · obtain rfl : (fun _ => 0) = m := hrun
      exact absurd hlegal.1 (by decide)
    · obtain ⟨-, rfl⟩ := hrun
      exact absurd hlegal.2.1 (by decide)
  · obtain ⟨s, hr, hcommitted, hlog, r, hmem, hr₁, hr₂, hops⟩ :
        ∃ s : Threads (Nvhtm.Shared (Fin 2)) Nvhtm.Tx (Fin 2),
          Run (Nvhtm.step .nvhtm) anyStep (Nvhtm.init (Fin 2) fun _ => 0) s ∧
            (s.tx 1).committed = some true ∧
            s.shared.log =
              [[.write 0x100010 1], [.write 0x100008 1, .write 0x100000 1]] ∧
            ∃ r ∈ s.shared.ro, r.begun = 1 ∧ r.ended = 2 ∧
              r.ops = [.read 0x100008 1, .read 0x100000 0] :=
      exists_run_of_exec
        (.flatten [
          Threads.calls 0 (.begin :: .tau :: .write 0x100010 1 :: .commit :: .replicate 8 .tau),
          Threads.calls 1 [.begin, .tau, .read 0x100000, .tau, .tau, .tau, .tau],
          Threads.calls 0 [.begin, .tau, .write 0x100000 1, .write 0x100008 1, .commit],
          Threads.calls 0 (.replicate 13 .tau),
          Threads.calls 1 [.read 0x100008, .tau, .tau, .tau, .tau, .commit]])
        (by decide +kernel)
    refine ⟨s, hr, hcommitted, r, hmem, fun ⟨k, hbegun, hended, _, m, hrun, hlegal⟩ => ?_⟩
    rw [hlog] at hrun
    rw [hops] at hlegal
    obtain rfl | rfl : k = 1 ∨ k = 2 := by omega
    · obtain ⟨-, rfl⟩ := hrun
      exact absurd hlegal.1 (by decide)
    · obtain ⟨-, -, rfl⟩ := hrun
      exact absurd hlegal.2.1 (by decide)

end Rust
