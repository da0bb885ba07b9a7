import ClangTM.NOrec.Invariant
import ClangTM.NOrecBF.Basic

/-!
# NOrec-BF as NOrec

Without the filters a state of NOrec-BF is a state of NOrec (`abs`). A writer that has written
everything back and is busy with the global filter is one that is about to release the lock,
and a transaction that looks at the filter is one that has all of its read set still to
compare.

A step of NOrec-BF is then a step of NOrec or no step at all (`Sim.stay`), with two
exceptions. On the fast path `validate` returns without a comparison (`Sim.fast`), and it
begins again without one when the lock has moved (`Sim.retry`).
-/

namespace NOrecBF

open Serial Transition NOrec BloomFilter

def absPc (x : Tx) : NOrec.Pc :=
  match x.pc with
  | .out => .out
  | .beginClock => .beginClock
  | .beginGen | .body => .body
  | .readClock a => .readClock a
  | .readValue a clockBefore => .readValue a clockBefore
  | .readClockAfter a clockBefore value => .readClockAfter a clockBefore value
  | .readCheck a value => .readCheck a value
  | .readAgain a => .readAgain a
  | .validateClock k => .validateClock k
  | .validateGen k time | .validateFilter k time _ | .validateFast k time =>
      .validateEntries k time x.readSet.reverse
  | .validateEntries k time rest => .validateEntries k time rest
  | .commitCas => .commitCas
  | .writeBack rest => .writeBack rest
  | .insertFirst _ | .insertSecond _ | .popcount _ _ | .bumpGen | .clear _ | .release =>
      .writeBack []

def absTx (x : Tx) : NOrec.Tx where
  pc := absPc x
  snapshot := x.snapshot
  active := x.active
  readOnly := x.readOnly
  readSet := x.readSet
  writeSet := x.writeSet
  ops := x.ops

def abs (s : Threads Shared Tx ℕ) : NOrec.State where
  globalLock := s.shared.globalLock
  mem := s.shared.mem
  tx t := absTx (s.tx t)
  writers := s.shared.writers
  log := s.shared.log
  ro := s.shared.ro

theorem abs_init (m₀ : WordAddr → Word) : abs (init m₀) = NOrec.init m₀ := rfl

section

variable {s : Threads Shared Tx ℕ} {t : ℕ} {σ : Shared} {x : Tx} {k : Caller} {time clock : Word}

theorem abs_put : abs (s.put t σ x) =
    { globalLock := σ.globalLock
      mem := σ.mem
      tx := Function.update (abs s).tx t (absTx x)
      writers := σ.writers
      log := σ.log
      ro := σ.ro } := by
  simp only [abs, Threads.put_shared, NOrec.State.mk.injEq, true_and, and_true]
  funext u
  by_cases hu : u = t
  · subst hu
    simp
  · rw [Threads.put_tx_of_ne hu, Function.update_of_ne hu]

theorem abs_put_shared : abs (s.put t s.shared x) = (abs s).setTx t (absTx x) := abs_put

theorem absTx_pc {pc : Pc} (hpc : x.pc = pc) : (absTx x).pc = absPc { x with pc := pc } := by
  subst hpc
  rfl

theorem absTx_begin : absTx (x.begin clock) =
    if isOdd clock then { absTx x with snapshot := clock } else (absTx x).begin clock := by
  unfold Tx.begin NOrec.Tx.begin
  split <;> rfl

theorem absTx_readWordNorec (hpc : x.pc = .body) (a : WordAddr) :
    absTx (x.readWordNorec a) = (absTx x).readWordNorec a := by
  unfold Tx.readWordNorec NOrec.Tx.readWordNorec
  have hws : (absTx x).writeSet = x.writeSet := rfl
  rw [hws]
  cases x.writeSet.lookup a with
  | none => rfl
  | some v => simp [absTx, absPc, hpc]

theorem absTx_writeWordNorec (hpc : x.pc = .body) (a : WordAddr) (v : Word) :
    absTx (x.writeWordNorec a v) = (absTx x).writeWordNorec a v := by
  unfold Tx.writeWordNorec NOrec.Tx.writeWordNorec
  split <;> simp [absTx, absPc, hpc]

theorem absTx_validated : absTx (x.validated k time) = (absTx x).validated k time := by
  cases k <;> rfl

theorem absTx_validateTime : absTx (x.validateTime k clock) = (absTx x).validateTime k clock := by
  unfold Tx.validateTime NOrec.Tx.validateTime
  split
  · rfl
  · show absTx (if x.readSet = [] then _ else _) = if x.readSet = [] then _ else _
    split
    · exact absTx_validated
    · rfl

theorem absTx_insertFrom (rest : List (WordAddr × Word)) :
    absTx (x.insertFrom rest) = { absTx x with pc := .writeBack [] } := by
  unfold Tx.insertFrom
  split <;> rfl

theorem absTx_writeBackFrom (rest : List (WordAddr × Word)) :
    absTx (x.writeBackFrom rest) = { absTx x with pc := .writeBack rest } := by
  unfold Tx.writeBackFrom
  split
  · next hrest => rw [absTx_insertFrom, hrest]
  · rfl

end

inductive Sim (s : Threads Shared Tx ℕ) (t : ℕ) (c : TxCall) (σ : Shared) (x : Tx) : Prop
  | stay (h : abs (s.put t σ x) = abs s)
  | move (h : NOrec.step (abs s) (t, c) = some (abs (s.put t σ x)))
  | fast (k : Caller) (time : Word) (hpc : (s.tx t).pc = .validateFast k time)
      (htime : time = s.shared.globalLock) (hσ : σ = s.shared)
      (hx : x = (s.tx t).validated k time)
  | retry (k : Caller) (time : Word) (hpc : (s.tx t).pc = .validateFast k time)
      (hσ : σ = s.shared) (hx : x = { s.tx t with pc := .validateClock k })

section Sim

variable {s : Threads Shared Tx ℕ} {t : ℕ} {c : TxCall} {σ : Shared} {x : Tx}

theorem Sim.stay_of_eq (h : absTx x = absTx (s.tx t)) (hlock : σ.globalLock = s.shared.globalLock)
    (hmem : σ.mem = s.shared.mem) (hwriters : σ.writers = s.shared.writers)
    (hlog : σ.log = s.shared.log) (hro : σ.ro = s.shared.ro) : Sim s t c σ x := by
  refine .stay ?_
  rw [abs_put, h, hlock, hmem, hwriters, hlog, hro]
  simp only [abs, NOrec.State.mk.injEq, true_and, and_true]
  exact Function.update_eq_self _ _

theorem Sim.look (h : (absTx (s.tx t)).look s.shared.globalLock s.shared.mem c = some (absTx x)) :
    Sim s t c s.shared x := by
  refine .move ?_
  have hx : (abs s).tx t = absTx (s.tx t) := rfl
  rw [abs_put_shared]
  show stepOf (abs s) t c = _
  unfold stepOf
  split
  · next hpc => simp [NOrec.Tx.look, ← hx, hpc] at h
  · next hpc => simp [NOrec.Tx.look, ← hx, hpc] at h
  · next hpc => simp [NOrec.Tx.look, ← hx, hpc] at h
  · next hpc => simp [NOrec.Tx.look, ← hx, hpc] at h
  · rw [hx]
    exact congrArg (Option.map ((abs s).setTx t)) h

theorem sim_look {p : Pc} (hpc : (s.tx t).pc = p)
    (h : { absTx (s.tx t) with pc := absPc { s.tx t with pc := p } }.look s.shared.globalLock
      s.shared.mem c = some (absTx x)) : Sim s t c s.shared x := by
  subst hpc
  exact .look h

theorem sim_access (h : access s.shared (s.tx t) = some (σ, x)) : Sim s t .tau σ x := by
  unfold access at h
  cases hpc : (s.tx t).pc
  all_goals rw [hpc] at h
  case commitCas =>
    have h := Option.some.inj h
    refine .move ?_
    show stepOf (abs s) t .tau = _
    have hp : ((abs s).tx t).pc = .commitCas := absTx_pc hpc
    simp only [stepOf, hp]
    show (if s.shared.globalLock = (s.tx t).snapshot then _ else _) = _
    split at h <;> cases h
    · next hlock =>
        rw [if_pos hlock, abs_put, absTx_writeBackFrom]
        rfl
    · next hlock =>
        rw [if_neg hlock, abs_put_shared]
        rfl
  all_goals try obtain ⟨rfl, rfl⟩ := pair_eq h
  case out | body => cases h
  case beginClock =>
    refine sim_look hpc ?_
    rw [absTx_begin]
    show some (NOrec.Tx.begin _ _) = _
    split <;> simp_all [NOrec.Tx.begin, absTx, absPc]
  case beginGen =>
    refine .stay_of_eq ?_ rfl rfl rfl rfl rfl
    simp [absTx, absPc, hpc]
  case readClock a =>
    refine sim_look hpc ?_
    show some _ = some _
    split <;> rfl
  case readValue a clockBefore =>
    exact sim_look hpc rfl
  case readClockAfter a clockBefore value =>
    refine sim_look hpc ?_
    show some _ = some _
    split <;> rfl
  case readCheck a value =>
    refine sim_look hpc ?_
    show (if (s.tx t).snapshot = s.shared.globalLock then _ else _) = _
    split <;> rfl
  case readAgain a =>
    refine sim_look hpc ?_
    show (if (s.tx t).readSet.length > _ then _ else _) = _
    split <;> rfl
  case validateClock k =>
    refine sim_look hpc ?_
    show some (NOrec.Tx.validateTime _ _ _) = _
    rw [absTx_validateTime]
    rfl
  case validateGen k time =>
    refine .stay_of_eq ?_ rfl rfl rfl rfl rfl
    split <;> simp [absTx, absPc, hpc, Tx.validateExact]
  case validateFilter k time i =>
    refine .stay_of_eq ?_ rfl rfl rfl rfl rfl
    unfold Tx.validateWord
    split
    · simp [absTx, absPc, hpc, Tx.validateExact]
    · split <;> simp [absTx, absPc, hpc]
  case validateFast k time =>
    split
    · next htime => exact .fast k time hpc htime rfl rfl
    · exact .retry k time hpc rfl rfl
  case validateEntries k time rest =>
    cases rest with
    | nil =>
        obtain ⟨rfl, rfl⟩ := pair_eq h
        refine sim_look hpc ?_
        show (if time = s.shared.globalLock then _ else _) = _
        split
        · rw [absTx_validated]
          cases k <;> rfl
        · rfl
    | cons r rest =>
        obtain ⟨rfl, rfl⟩ := pair_eq h
        refine sim_look hpc ?_
        show (if s.shared.mem r.addr = r.observedVal then _ else _) = _
        split <;> rfl
  case writeBack rest =>
    obtain ⟨w, hw, rfl, rfl⟩ := map_pair_eq h
    obtain ⟨rest, rfl⟩ := List.head?_eq_some_iff.1 hw
    refine .move ?_
    show stepOf (abs s) t .tau = _
    have hp : ((abs s).tx t).pc = .writeBack (w :: rest) := absTx_pc hpc
    simp only [stepOf, hp]
    rw [abs_put, absTx_writeBackFrom]
    rfl
  case insertFirst rest =>
    obtain ⟨w, -, rfl, rfl⟩ := map_pair_eq h
    refine .stay_of_eq ?_ rfl rfl rfl rfl rfl
    simp [absTx, absPc, hpc]
  case insertSecond rest =>
    obtain ⟨w, -, rfl, rfl⟩ := map_pair_eq h
    refine .stay_of_eq ?_ rfl rfl rfl rfl rfl
    rw [absTx_insertFrom]
    simp [absTx, absPc, hpc]
  case popcount i n =>
    refine .stay_of_eq ?_ rfl rfl rfl rfl rfl
    unfold Tx.counted
    split
    · simp [absTx, absPc, hpc]
    · split <;> simp [absTx, absPc, hpc]
  case bumpGen =>
    refine .stay_of_eq ?_ rfl rfl rfl rfl rfl
    simp [absTx, absPc, hpc]
  case clear i =>
    refine .stay_of_eq ?_ rfl rfl rfl rfl rfl
    split <;> simp [absTx, absPc, hpc]
  case release =>
    refine .move ?_
    show stepOf (abs s) t .tau = _
    have hp : ((abs s).tx t).pc = .writeBack [] := absTx_pc hpc
    simp only [stepOf, hp]
    rw [abs_put]
    rfl

theorem sim_next (h : next s.shared (s.tx t) t c = some (σ, x)) : Sim s t c σ x := by
  cases c with
  | tau => exact sim_access h
  | begin =>
      simp only [next] at h
      split at h <;> cases h
      next hpc => exact sim_look hpc rfl
  | read a =>
      simp only [next] at h
      split at h <;> cases h
      next hpc =>
          refine .look ?_
          rw [absTx_readWordNorec hpc]
          have hp : (absTx (s.tx t)).pc = .body := absTx_pc hpc
          simp only [NOrec.Tx.look, hp]
  | write a v =>
      simp only [next] at h
      split at h <;> cases h
      next hpc =>
          refine .look ?_
          rw [absTx_writeWordNorec hpc]
          have hp : (absTx (s.tx t)).pc = .body := absTx_pc hpc
          simp only [NOrec.Tx.look, hp]
  | commit =>
      simp only [next] at h
      split at h
      · next hpc =>
          refine .move ?_
          show stepOf (abs s) t .commit = _
          have hp : ((abs s).tx t).pc = .body := absTx_pc hpc
          simp only [stepOf, hp]
          show (if (s.tx t).readOnly = true then _ else _) = _
          have h := Option.some.inj h
          split at h <;> cases h
          · next hro =>
              rw [if_pos hro, abs_put]
              rfl
          · next hro =>
              rw [if_neg hro, abs_put_shared]
              rfl
      · cases h
  | abort =>
      simp only [next] at h
      split at h <;> cases h
      next hpc => exact sim_look hpc rfl

end Sim

end NOrecBF
