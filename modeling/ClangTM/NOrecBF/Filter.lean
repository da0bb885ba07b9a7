import ClangTM.NOrecBF.Simulation

/-!
# The filters of NOrec-BF

Every word that a writer after the last rebuild has written is in the global filter, apart from
those the holder of the lock has still to insert (`FilterInv.marked`). Every word a transaction
has read is in its own filter (`Known.covers`). A generation that has not changed since `begin`
says that the last rebuild is no later than the snapshot (`Known.since`): the generation is
loaded after the first snapshot, so this is not true at `begin`, where the rebuild may fall
between the two loads; but the first entry of the read set is recorded at a snapshot at which
the lock was free again.

A transaction that has found its filter disjoint from the global one at a clock value at which
the lock is free has therefore read no word that was written after its snapshot.
-/

namespace NOrecBF

open Serial Transition NOrec BloomFilter

/-- The words a writer has still to insert into the global filter. -/
def Tx.todo (x : Tx) : List WordAddr :=
  match x.pc with
  | .writeBack _ => x.writeSet.map Prod.fst
  | .insertFirst rest | .insertSecond rest => rest.map Prod.fst
  | _ => []

/-- The generation is the transaction's, and its filter shares no bit with the first `i` words
of the global one. -/
structure Disjoint (σ : Shared) (x : Tx) (i : ℕ) : Prop where
  gen : x.gen = σ.gGcGen
  words : ∀ j < i, x.readBf j &&& σ.gGc j = 0

def Checked (σ : Shared) (x : Tx) : Prop :=
  match x.pc with
  | .beginGen => x.readSet = []
  | .validateFilter _ time i => σ.globalLock = time → Disjoint σ x i
  | .validateFast _ time => σ.globalLock = time → Disjoint σ x kBloomWords
  | _ => True

structure Known (σ : Shared) (x : Tx) : Prop where
  covers : ∀ r ∈ x.readSet, Contains kBloomWords x.readBf (key r.addr)
  gen_le : x.gen.toNat ≤ σ.gGcGen.toNat
  since : x.readSet ≠ [] → x.gen = σ.gGcGen → 2 * σ.rebuilt ≤ x.snapshot.toNat
  here : Checked σ x

/-- Where the holder of the lock is with the global filter. -/
def Filling (σ : Shared) (x : Tx) : Prop :=
  match x.pc with
  | .writeBack _ | .insertFirst _ | .popcount _ _ | .bumpGen => σ.rebuilt < σ.writers
  | .insertSecond rest =>
      σ.rebuilt < σ.writers ∧
        ∀ w ∈ rest.head?, Marks kBloomWords σ.gGc (firstHash (key w.1))
  | .clear _ => σ.rebuilt = σ.writers
  | _ => True

structure FilterInv (s : Threads Shared Tx ℕ) : Prop where
  gen : s.shared.gGcGen.toNat ≤ s.shared.rebuilt
  rebuilt : s.shared.rebuilt ≤ s.shared.writers
  marked : ∀ n w a, s.shared.rebuilt < n → n ≤ s.shared.writers → s.shared.log n = some w →
    lastWrite w a ≠ none →
    Contains kBloomWords s.shared.gGc (key a) ∨ ∃ t, a ∈ (s.tx t).todo
  known : ∀ t, Known s.shared (s.tx t)
  filling : ∀ t, Filling s.shared (s.tx t)

/-- A step that leaves the filters as they are at every clock value that a validation can have
taken as its `time`. -/
structure Calm (σ σ' : Shared) : Prop where
  lock : ∀ c : Word, c.toNat % 2 = 0 → c.toNat ≤ σ.globalLock.toNat → σ'.globalLock = c →
    σ.globalLock = c ∧ σ'.gGcGen = σ.gGcGen ∧ σ'.gGc = σ.gGc
  gen : σ.gGcGen.toNat ≤ σ'.gGcGen.toNat
  rebuilt : σ'.gGcGen = σ.gGcGen → σ'.rebuilt = σ.rebuilt

theorem Calm.of_eq {σ σ' : Shared} (hlock : σ'.globalLock = σ.globalLock)
    (hgen : σ'.gGcGen = σ.gGcGen) (hgc : σ'.gGc = σ.gGc) (hreb : σ'.rebuilt = σ.rebuilt) :
    Calm σ σ' where
  lock _ _ _ hc := ⟨hlock ▸ hc, hgen, hgc⟩
  gen := hgen ▸ le_rfl
  rebuilt _ := hreb

theorem Calm.of_odd {σ σ' : Shared} (hodd : σ.globalLock.toNat % 2 = 1)
    (hlock : σ'.globalLock = σ.globalLock) (hgen : σ.gGcGen.toNat ≤ σ'.gGcGen.toNat)
    (hreb : σ'.gGcGen = σ.gGcGen → σ'.rebuilt = σ.rebuilt) : Calm σ σ' where
  lock c heven _ hc := by
    rw [← hc, hlock] at heven
    omega
  gen := hgen
  rebuilt := hreb

theorem Calm.of_lt {σ σ' : Shared} (hlt : σ.globalLock.toNat < σ'.globalLock.toNat)
    (hgen : σ'.gGcGen = σ.gGcGen) (hreb : σ'.rebuilt = σ.rebuilt) : Calm σ σ' where
  lock c _ hle hc := by
    rw [← hc] at hle
    omega
  gen := hgen ▸ le_rfl
  rebuilt _ := hreb

section Known

variable {σ σ' : Shared} {x : Tx} {k : Caller} {time : Word} {L : ℕ} {M : ℕ → WordAddr → Word}

theorem time_of_validate (h : TxInv L M (absTx x)) {rest : List ReadLogEntry}
    (hpc : (absTx x).pc = .validateEntries k time rest) :
    k.Fresh (absTx x) ∧ time.toNat % 2 = 0 ∧ time.toNat ≤ L := by
  have hhere := h.here
  rw [PcInv, hpc] at hhere
  exact ⟨hhere.1, hhere.2.1, hhere.2.2.1⟩

theorem Disjoint.of_eq {i : ℕ} (h : Disjoint σ x i) (hgen : σ'.gGcGen = σ.gGcGen)
    (hgc : σ'.gGc = σ.gGc) : Disjoint σ' x i :=
  ⟨h.gen.trans hgen.symm, fun j hj => hgc ▸ h.words j hj⟩

/-- What a thread knows of the filters is not affected by what the others do. -/
theorem Known.later (h : Known σ x) (hx : TxInv σ.globalLock.toNat M (absTx x))
    (hcalm : Calm σ σ') : Known σ' x where
  covers := h.covers
  gen_le := h.gen_le.trans hcalm.gen
  since hne hgen := by
    have hgen₀ : σ'.gGcGen = σ.gGcGen := by
      have h₁ := h.gen_le
      have h₂ := hcalm.gen
      rw [hgen] at h₁
      exact BitVec.eq_of_toNat_eq (by omega)
    rw [hcalm.rebuilt hgen₀]
    exact h.since hne (hgen.trans hgen₀)
  here := by
    have hhere := h.here
    unfold Checked at hhere ⊢
    cases hpc : x.pc with
    | beginGen =>
        rw [hpc] at hhere
        exact hhere
    | validateFilter k time i =>
        rw [hpc] at hhere
        obtain ⟨-, heven, hle⟩ := time_of_validate hx (absTx_pc hpc)
        intro hlock
        obtain ⟨hlock₀, hgen, hgc⟩ := hcalm.lock time heven hle hlock
        exact (hhere hlock₀).of_eq hgen hgc
    | validateFast k time =>
        rw [hpc] at hhere
        obtain ⟨-, heven, hle⟩ := time_of_validate hx (absTx_pc hpc)
        intro hlock
        obtain ⟨hlock₀, hgen, hgc⟩ := hcalm.lock time heven hle hlock
        exact (hhere hlock₀).of_eq hgen hgc
    | _ => trivial

theorem Known.goto (h : Known σ x) (pc : Pc) (hhere : Checked σ { x with pc := pc }) :
    Known σ { x with pc := pc } :=
  ⟨h.covers, h.gen_le, h.since, hhere⟩

theorem Known.of_nil (hempty : x.readSet = []) (hgen : x.gen.toNat ≤ σ.gGcGen.toNat)
    (hhere : Checked σ x) : Known σ x :=
  ⟨by simp [hempty], hgen, fun hne => absurd hempty hne, hhere⟩

theorem Known.abortTx (h : Known σ x) : Known σ x.abortTx := .of_nil rfl h.gen_le trivial

theorem Known.idle : Known σ {} := .of_nil rfl (Nat.zero_le _) trivial

section

variable (h : Known σ x)
include h

theorem Known.begin (hpc : x.pc = .beginClock) (hempty : x.readSet = []) (clock : Word) :
    Known σ (x.begin clock) := by
  unfold Tx.begin
  split
  · exact .of_nil hempty h.gen_le (by simp [Checked, hpc])
  · exact .of_nil rfl h.gen_le rfl

theorem Known.readWordNorec (hpc : x.pc = .body) (a : WordAddr) : Known σ (x.readWordNorec a) := by
  unfold Tx.readWordNorec
  cases x.writeSet.lookup a with
  | none => exact h.goto _ trivial
  | some v => exact ⟨h.covers, h.gen_le, h.since, by simp [Checked, hpc]⟩

theorem Known.writeWordNorec (hpc : x.pc = .body) (a : WordAddr) (v : Word) :
    Known σ (x.writeWordNorec a v) := by
  unfold Tx.writeWordNorec
  split <;> exact ⟨h.covers, h.gen_le, h.since, by simp [Checked, hpc]⟩

theorem Known.pushRead (hreb : 2 * σ.rebuilt ≤ x.snapshot.toNat) (a : WordAddr) (v : Word) :
    Known σ (x.pushRead a v) where
  covers r hr := by
    rcases List.mem_cons.1 hr with rfl | hr
    · exact contains_insert_self _ _ _
    · exact (h.covers r hr).insert _
  gen_le := h.gen_le
  since _ _ := hreb
  here := trivial

theorem Known.validated (hreb : x.readSet ≠ [] → 2 * σ.rebuilt ≤ time.toNat) (k : Caller) :
    Known σ (x.validated k time) := by
  cases k <;> exact ⟨h.covers, h.gen_le, fun hne _ => hreb hne, trivial⟩

theorem Known.validateTime (k : Caller) (clock : Word) : Known σ (x.validateTime k clock) := by
  unfold Tx.validateTime
  split
  · exact h.goto _ trivial
  · split
    · next hempty => exact h.validated (fun hne => absurd hempty hne) k
    · exact h.goto _ trivial

theorem Known.validateExact (k : Caller) (time : Word) : Known σ (x.validateExact k time) :=
  h.goto _ trivial

theorem Known.validateWord {i : ℕ} (hpc : x.pc = .validateFilter k time i) :
    Known σ (x.validateWord k time i (σ.gGc i)) := by
  have hhere := h.here
  simp only [Checked, hpc] at hhere
  unfold Tx.validateWord
  split
  · exact h.validateExact k time
  · next hzero =>
      have hword : ∀ j < i + 1, σ.globalLock = time → x.readBf j &&& σ.gGc j = 0 := by
        intro j hj hlock
        by_cases hji : j = i
        · subst hji
          exact not_not.1 hzero
        · exact (hhere hlock).words j (by omega)
      split
      · exact h.goto _ fun hlock => ⟨(hhere hlock).gen, fun j hj => hword j hj hlock⟩
      · exact h.goto _ fun hlock => ⟨(hhere hlock).gen, fun j hj => hword j (by omega) hlock⟩

theorem Known.insertFrom (rest : List (WordAddr × Word)) : Known σ (x.insertFrom rest) := by
  refine h.goto _ ?_
  by_cases hrest : rest = [] <;> simp [Checked, hrest]

theorem Known.writeBackFrom (rest : List (WordAddr × Word)) : Known σ (x.writeBackFrom rest) := by
  unfold Tx.writeBackFrom
  split
  · exact h.insertFrom _
  · exact h.goto _ trivial

end

/-- A thread that does not hold the lock has nothing to do with the global filter. -/
theorem not_filling (hx : (absTx x).pc.pending = none) (σ : Shared) :
    Filling σ x ∧ x.todo = [] := by
  unfold Filling Tx.todo
  cases hpc : x.pc with
  | writeBack rest | insertFirst rest | insertSecond rest | popcount i n | bumpGen | clear i |
    release =>
      have hp := absTx_pc hpc
      simp [hp, absPc, NOrec.Pc.pending] at hx
  | _ => exact ⟨trivial, rfl⟩

theorem todo_insertFrom (x : Tx) (rest : List (WordAddr × Word)) :
    (x.insertFrom rest).todo = rest.map Prod.fst := by
  unfold Tx.insertFrom Tx.todo
  split <;> grind

theorem mem_todo_writeBackFrom (x : Tx) (rest : List (WordAddr × Word)) (a : WordAddr) :
    a ∈ (x.writeBackFrom rest).todo ↔ a ∈ x.writeSet.map Prod.fst := by
  unfold Tx.writeBackFrom
  split
  · rw [todo_insertFrom, List.map_reverse, List.mem_reverse]
  · rfl

theorem Filling.insertFrom (h : σ.rebuilt < σ.writers) (rest : List (WordAddr × Word)) :
    Filling σ (x.insertFrom rest) := by
  unfold Tx.insertFrom Filling
  split <;> grind

theorem Filling.writeBackFrom (h : σ.rebuilt < σ.writers) (rest : List (WordAddr × Word)) :
    Filling σ (x.writeBackFrom rest) := by
  unfold Tx.writeBackFrom
  split
  · exact .insertFrom h _
  · exact h

end Known

end NOrecBF
