import ClangTM.NOrecBF.Filter

/-!
# The invariant of NOrec-BF

A state of NOrec-BF is as good as the state of NOrec it stands for, and the filters are in
order. The two parts need each other: the fast path is sound because of the filters
(`Inv.reads_of_fast`), and what the filters are worth depends on who holds the lock.
-/

namespace NOrecBF

open Serial Transition NOrec BloomFilter

structure Inv (m₀ : WordAddr → Word) (s : Threads Shared Tx ℕ) : Prop where
  base : NOrec.Inv m₀ (abs s)
  filter : FilterInv s

/-- The steps that the invariant is about: no write that `write_word_norec` skips, and fewer
than `2 ^ 63` writers. -/
def Bounded (_ : Threads Shared Tx ℕ) (l : ℕ × TxCall) (s' : Threads Shared Tx ℕ) : Prop :=
  WritesLow l.2 ∧ s'.shared.writers < 2 ^ 63

instance (s : Threads Shared Tx ℕ) (l : ℕ × TxCall) (s' : Threads Shared Tx ℕ) :
    Decidable (Bounded s l s') :=
  inferInstanceAs (Decidable (_ ∧ _))

section

variable {m₀ : WordAddr → Word} {s s' : Threads Shared Tx ℕ} {t : ℕ} {c : TxCall} {σ : Shared}
  {x : Tx} {k : Caller} {time : Word}

namespace Inv

theorem init (m₀ : WordAddr → Word) : Inv m₀ (NOrecBF.init m₀) where
  base := abs_init m₀ ▸ NOrec.Inv.init m₀
  filter :=
    { gen := le_rfl
      rebuilt := le_rfl
      marked := fun n w a hpos hle => by
        have : n ≤ 0 := hle
        omega
      known := fun _ => .idle
      filling := fun _ => trivial }

section

variable (h : Inv m₀ s)
include h

variable {rest : List (WordAddr × Word)} {w : WordAddr × Word}

theorem free_of_even (he : s.shared.globalLock.toNat % 2 = 0) :
    s.shared.globalLock.toNat = 2 * s.shared.writers ∧
      ∀ u, (absTx (s.tx u)).pc.pending = none :=
  have hfree := h.base.lock.free_of_even he
  ⟨hfree.clock, hfree.writing⟩

theorem rebuilt_le (he : s.shared.globalLock.toNat % 2 = 0) :
    2 * s.shared.rebuilt ≤ s.shared.globalLock.toNat := by
  have hclock := (h.free_of_even he).1
  have hreb := h.filter.rebuilt
  omega

/-- The filters are a proof: a transaction whose filter is disjoint from the global one while
the lock is free has read the memory of the current clock value. -/
theorem reads_of_disjoint (hin : (absTx (s.tx t)).pc.inside = true)
    (he : s.shared.globalLock.toNat % 2 = 0) (hd : Disjoint s.shared (s.tx t) kBloomWords) :
    ∀ r ∈ (s.tx t).readSet,
      memAt m₀ s.shared.log (s.shared.globalLock.toNat / 2) r.addr = r.observedVal := by
  intro r hr
  obtain ⟨hclock, hpending⟩ := h.free_of_even he
  obtain ⟨-, hle, hreads⟩ := (h.base.tx t).taken hin
  have hknown := h.filter.known t
  have hsince := hknown.since (List.ne_nil_of_mem hr) hd.gen
  have hold : memAt m₀ s.shared.log ((s.tx t).snapshot.toNat / 2) r.addr = r.observedVal :=
    hreads r hr
  rw [← hold]
  replace hle : (s.tx t).snapshot.toNat ≤ s.shared.globalLock.toNat := hle
  refine memAt_eq_of_unwritten (by omega) fun n w hlo hhi hw => ?_
  by_contra hwritten
  rcases h.filter.marked n w r.addr (by omega) (by omega) hw hwritten with hmark | ⟨u, hu⟩
  · obtain ⟨i, hi, hbits⟩ := (hknown.covers r hr).not_disjoint (by decide) hmark
    exact hbits (hd.words i hi)
  · rw [(not_filling (hpending u) s.shared).2] at hu
    cases hu

/-- The fast path of `validate` returns a clock value at which the read set is in memory. -/
theorem taken_of_fast (hpc : (s.tx t).pc = .validateFast k time)
    (htime : time = s.shared.globalLock) :
    k.Fresh (absTx (s.tx t)) ∧
      TakenAt s.shared.globalLock.toNat (memAt m₀ s.shared.log) time (s.tx t).readSet := by
  have hp := absTx_pc hpc
  obtain ⟨hfresh, heven, hle⟩ := time_of_validate (h.base.tx t) hp
  subst htime
  have hhere := (h.filter.known t).here
  rw [Checked, hpc] at hhere
  refine ⟨hfresh, heven, hle, ?_⟩
  exact h.reads_of_disjoint (by simp [hp, absPc, NOrec.Pc.inside]) heven (hhere rfl)

theorem base_next (hs : next s.shared (s.tx t) t c = some (σ, x)) (hc : WritesLow c)
    (hbound : σ.writers < 2 ^ 63) : NOrec.Inv m₀ (abs (s.put t σ x)) := by
  cases sim_next hs with
  | stay heq => exact heq ▸ h.base
  | move hmove => exact (h.base.step hmove ⟨hc, hbound⟩).1
  | fast k time hpc htime hσ hx =>
      have hp : ((abs s).tx t).pc = _ := absTx_pc hpc
      obtain ⟨hfresh, htaken⟩ := h.taken_of_fast hpc htime
      subst hσ hx
      rw [abs_put_shared, absTx_validated]
      refine (h.base.setTx ?_ (by rw [hp]; rfl) (NOrec.Tx.validated_pending _ _ _)).1
      exact (h.base.tx t).validated hp rfl hfresh htaken
  | retry k time hpc hσ hx =>
      have hp : ((abs s).tx t).pc = _ := absTx_pc hpc
      subst hσ hx
      rw [abs_put_shared]
      refine (h.base.setTx ?_ (by rw [hp]; rfl) rfl).1
      refine (h.base.tx t).goto hp rfl rfl ?_
      exact (time_of_validate (h.base.tx t) hp).1

theorem filter_put (hcalm : Calm s.shared σ) (hgen : σ.gGcGen.toNat ≤ σ.rebuilt)
    (hreb : σ.rebuilt ≤ σ.writers)
    (hmarked : ∀ n w a, σ.rebuilt < n → n ≤ σ.writers → σ.log n = some w →
      lastWrite w a ≠ none →
      Contains kBloomWords σ.gGc (key a) ∨ a ∈ x.todo ∨ ∃ u, u ≠ t ∧ a ∈ (s.tx u).todo)
    (hother : ∀ u, u ≠ t → Filling σ (s.tx u)) (hx : Known σ x) (hfill : Filling σ x) :
    FilterInv (s.put t σ x) where
  gen := hgen
  rebuilt := hreb
  marked n w a hlo hhi hw hwritten := by
    rcases hmarked n w a hlo hhi hw hwritten with hmark | hself | ⟨u, hu, hother⟩
    · exact .inl hmark
    · exact .inr ⟨t, by rwa [Threads.put_tx_self]⟩
    · exact .inr ⟨u, by rwa [Threads.put_tx_of_ne hu]⟩
  known := Threads.forall_put hx fun u _ => (h.filter.known u).later (h.base.tx u) hcalm
  filling := Threads.forall_put hfill hother

theorem filter_local (htodo : (s.tx t).todo = []) (ro : List (ℕ × Trace WordAddr Word))
    (hx : Known { s.shared with ro := ro } x) (hfill : Filling s.shared x) :
    FilterInv (s.put t { s.shared with ro := ro } x) := by
  refine h.filter_put (.of_eq rfl rfl rfl rfl) h.filter.gen h.filter.rebuilt ?_
    (fun u _ => h.filter.filling u) hx hfill
  intro n w a hlo hhi hw hwritten
  rcases h.filter.marked n w a hlo hhi hw hwritten with hmark | ⟨u, hu⟩
  · exact .inl hmark
  · refine .inr (.inr ⟨u, ?_, hu⟩)
    rintro rfl
    rw [htodo] at hu
    cases hu

theorem filter_look {p : Pc} (hpc : (s.tx t).pc = p)
    (hold : (absPc { s.tx t with pc := p }).pending = none) (hnew : (absTx x).pc.pending = none)
    (hx : Known s.shared x) : FilterInv (s.put t s.shared x) :=
  h.filter_local (not_filling (absTx_pc hpc ▸ hold) s.shared).2 s.shared.ro hx
    (not_filling hnew s.shared).1

theorem filter_hold
    (hpc : (absTx (s.tx t)).pc = .writeBack rest) (hcalm : Calm s.shared σ)
    (hgen : σ.gGcGen.toNat ≤ σ.rebuilt) (hreb : σ.rebuilt ≤ σ.writers)
    (hlog : σ.log = s.shared.log) (hwriters : σ.writers = s.shared.writers)
    (hmono : s.shared.rebuilt ≤ σ.rebuilt)
    (hmarked : σ.rebuilt < σ.writers → ∀ a,
      Contains kBloomWords s.shared.gGc (key a) ∨ a ∈ (s.tx t).todo →
        Contains kBloomWords σ.gGc (key a) ∨ a ∈ x.todo)
    (hx : Known σ x) (hfill : Filling σ x) : FilterInv (s.put t σ x) := by
  have hother : ∀ u, u ≠ t → (absTx (s.tx u)).pc.pending = none :=
    fun u hu => (h.base.lock.held (t := t) (congrArg NOrec.Pc.pending hpc)).writing u hu
  refine h.filter_put hcalm hgen hreb ?_ (fun u hu => (not_filling (hother u hu) σ).1) hx hfill
  intro n w a hlo hhi hw hwritten
  rw [hlog] at hw
  have hold : Contains kBloomWords s.shared.gGc (key a) ∨ a ∈ (s.tx t).todo := by
    rcases h.filter.marked n w a (by omega) (by omega) hw hwritten with hmark | ⟨u, hu⟩
    · exact .inl hmark
    · by_cases hut : u = t
      · exact .inr (hut ▸ hu)
      · rw [(not_filling (hother u hut) s.shared).2] at hu
        cases hu
  exact (hmarked (by omega) a hold).imp_right .inl

theorem odd_of_held (hpc : (absTx (s.tx t)).pc = .writeBack rest) :
    s.shared.globalLock.toNat % 2 = 1 := by
  have : s.shared.globalLock.toNat + 1 = 2 * s.shared.writers :=
    (h.base.lock.held (t := t) (congrArg NOrec.Pc.pending hpc)).clock
  omega

theorem filter_acquire (hpc : (s.tx t).pc = .commitCas)
    (hlock : s.shared.globalLock = (s.tx t).snapshot) (hbound : s.shared.writers + 1 < 2 ^ 63) :
    FilterInv (s.put t (acquire s.shared (s.tx t))
      ((s.tx t).writeBackFrom (s.tx t).writeSet.reverse)) := by
  have hp := absTx_pc hpc
  have hin : (absTx (s.tx t)).pc.inside = true := by
    rw [hp]
    rfl
  have hrec := (h.base.tx t).recorded hin
  have hclock : (acquire s.shared (s.tx t)).globalLock.toNat = 2 * s.shared.writers + 1 :=
    h.base.acquire_clock hp hlock hbound
  have hclock₀ : s.shared.globalLock.toNat = 2 * s.shared.writers :=
    (h.base.free_of_snapshot hin hlock).clock
  have hfree : ∀ u, (absTx (s.tx u)).pc.pending = none :=
    (h.base.free_of_snapshot hin hlock).writing
  have hreb := h.filter.rebuilt
  have hcalm : Calm s.shared (acquire s.shared (s.tx t)) := .of_lt (by omega) rfl rfl
  refine h.filter_put hcalm h.filter.gen (hreb.trans (Nat.le_succ _)) ?_
    (fun u _ => (not_filling (hfree u) _).1) ?_ (.writeBackFrom (Nat.lt_succ_of_le hreb) _)
  · intro n w a hlo hhi hw hwritten
    replace hw : enter s.shared.log (s.shared.writers + 1) (s.tx t).ops n = some w := hw
    by_cases hn : n = s.shared.writers + 1
    · subst hn
      rw [enter_self] at hw
      obtain rfl := Option.some.inj hw
      refine .inr (.inl ((mem_todo_writeBackFrom _ _ a).2 ?_))
      have hlook : (s.tx t).writeSet.lookup a ≠ none := hrec.sets.writes a ▸ hwritten
      obtain ⟨v, hv⟩ := Option.ne_none_iff_exists'.1 hlook
      exact List.mem_map.2 ⟨(a, v), mem_of_lookup hv, rfl⟩
    · rw [enter_of_ne _ hn] at hw
      replace hhi : n ≤ s.shared.writers + 1 := hhi
      rcases h.filter.marked n w a hlo (by omega) hw hwritten with hmark | ⟨u, hu⟩
      · exact .inl hmark
      · rw [(not_filling (hfree u) s.shared).2] at hu
        cases hu
  · exact ((h.filter.known t).later (h.base.tx t) hcalm).writeBackFrom _

/-- A clock value that a transaction takes as its snapshot is no earlier than the last
rebuild. -/
theorem rebuilt_le_of_lock (htime : time = s.shared.globalLock) (heven : time.toNat % 2 = 0) :
    2 * s.shared.rebuilt ≤ time.toNat := by
  subst htime
  exact h.rebuilt_le heven

theorem filter_writeBack (hpc : (s.tx t).pc = .writeBack (w :: rest)) (m : WordAddr → Word) :
    FilterInv (s.put t { s.shared with mem := m } ((s.tx t).writeBackFrom rest)) := by
  have hfill := h.filter.filling t
  rw [Filling, hpc] at hfill
  have hcalm : Calm s.shared { s.shared with mem := m } := .of_eq rfl rfl rfl rfl
  refine h.filter_hold (absTx_pc hpc) hcalm h.filter.gen h.filter.rebuilt rfl rfl le_rfl
    (fun _ a => Or.imp_right fun ha => ?_) ?_ (.writeBackFrom hfill _)
  · rw [mem_todo_writeBackFrom]
    rwa [Tx.todo, hpc] at ha
  · exact ((h.filter.known t).later (h.base.tx t) hcalm).writeBackFrom _

theorem filter_insertFirst (hpc : (s.tx t).pc = .insertFirst (w :: rest)) :
    FilterInv (s.put t
      { s.shared with gGc := orWord kBloomWords s.shared.gGc (firstHash (key w.1)) }
      { s.tx t with pc := .insertSecond (w :: rest) }) := by
  have hp := absTx_pc hpc
  have hfill := h.filter.filling t
  rw [Filling, hpc] at hfill
  have hcalm : Calm s.shared
      { s.shared with gGc := orWord kBloomWords s.shared.gGc (firstHash (key w.1)) } :=
    .of_odd (h.odd_of_held hp) rfl le_rfl fun _ => rfl
  refine h.filter_hold hp hcalm h.filter.gen h.filter.rebuilt rfl rfl le_rfl
    (fun _ a => Or.imp (fun hmark => hmark.orWord _) fun ha => ?_) ?_ ⟨hfill, ?_⟩
  · rwa [Tx.todo, hpc] at ha
  · exact ((h.filter.known t).later (h.base.tx t) hcalm).goto _ trivial
  · intro w' hw'
    obtain rfl : w = w' := by simpa using hw'
    exact marks_orWord_self _ _ _

theorem filter_insertSecond (hpc : (s.tx t).pc = .insertSecond (w :: rest)) :
    FilterInv (s.put t
      { s.shared with gGc := orWord kBloomWords s.shared.gGc (secondHash (key w.1)) }
      ((s.tx t).insertFrom rest)) := by
  have hp := absTx_pc hpc
  have hfill := h.filter.filling t
  rw [Filling, hpc] at hfill
  have hcalm : Calm s.shared
      { s.shared with gGc := orWord kBloomWords s.shared.gGc (secondHash (key w.1)) } :=
    .of_odd (h.odd_of_held hp) rfl le_rfl fun _ => rfl
  refine h.filter_hold hp hcalm h.filter.gen h.filter.rebuilt rfl rfl le_rfl ?_ ?_
    (.insertFrom ?_ _)
  · rintro - a (hmark | ha)
    · exact .inl (hmark.orWord _)
    · rw [Tx.todo, hpc] at ha
      rw [todo_insertFrom]
      rcases List.mem_cons.1 ha with rfl | ha
      · exact .inl ⟨(hfill.2 w rfl).orWord _, marks_orWord_self _ _ _⟩
      · exact .inr ha
  · exact ((h.filter.known t).later (h.base.tx t) hcalm).insertFrom _
  · exact hfill.1

theorem filter_bumpGen (hpc : (s.tx t).pc = .bumpGen) (hbound : s.shared.writers < 2 ^ 63) :
    FilterInv (s.put t
      { s.shared with gGcGen := s.shared.gGcGen + 1, rebuilt := s.shared.writers }
      { s.tx t with pc := .clear 0 }) := by
  have hp := absTx_pc hpc
  have hfill := h.filter.filling t
  rw [Filling, hpc] at hfill
  have hgen := h.filter.gen
  have hone : (1 : Word).toNat = 1 := rfl
  have hadd : (s.shared.gGcGen + 1).toNat = s.shared.gGcGen.toNat + 1 := by
    rw [BitVec.toNat_add, hone]
    exact Nat.mod_eq_of_lt (by omega)
  have hcalm : Calm s.shared
      { s.shared with gGcGen := s.shared.gGcGen + 1, rebuilt := s.shared.writers } := by
    refine .of_odd (h.odd_of_held hp) rfl (by simp only [hadd]; omega) fun heq => ?_
    have := congrArg BitVec.toNat heq
    simp only [hadd] at this
    omega
  refine h.filter_hold hp hcalm (by simp only [hadd]; omega) le_rfl rfl rfl h.filter.rebuilt
    (fun hlt => absurd hlt (lt_irrefl _)) ?_ rfl
  exact ((h.filter.known t).later (h.base.tx t) hcalm).goto _ trivial

theorem filter_clear {i : ℕ} (hpc : (s.tx t).pc = .clear i) :
    FilterInv (s.put t { s.shared with gGc := Function.update s.shared.gGc i 0 }
      { s.tx t with pc := if i + 1 < kBloomWords then .clear (i + 1) else .release }) := by
  have hp := absTx_pc hpc
  have hfill := h.filter.filling t
  rw [Filling, hpc] at hfill
  have hcalm : Calm s.shared { s.shared with gGc := Function.update s.shared.gGc i 0 } :=
    .of_odd (h.odd_of_held hp) rfl le_rfl fun _ => rfl
  refine h.filter_hold hp hcalm h.filter.gen h.filter.rebuilt rfl rfl le_rfl
    (fun hlt => absurd hfill hlt.ne) ?_ ?_
  · refine ((h.filter.known t).later (h.base.tx t) hcalm).goto _ ?_
    split <;> trivial
  · by_cases hi : i + 1 < kBloomWords <;> simp [Filling, hi, hfill]

theorem filter_release (hpc : (s.tx t).pc = .release) (hbound : s.shared.writers < 2 ^ 63) :
    FilterInv (s.put t { s.shared with globalLock := (s.tx t).snapshot + 2 } {}) := by
  have hp := absTx_pc hpc
  have hclock : ((s.tx t).snapshot + 2).toNat = 2 * s.shared.writers :=
    h.base.release_clock hp hbound
  have hodd : s.shared.globalLock.toNat + 1 = 2 * s.shared.writers :=
    (h.base.lock.held (t := t) (congrArg NOrec.Pc.pending hp)).clock
  refine h.filter_hold hp (.of_lt (by simp only [hclock]; omega) rfl rfl) h.filter.gen
    h.filter.rebuilt rfl rfl le_rfl (fun _ a => Or.imp_right fun ha => ?_) .idle trivial
  rw [Tx.todo, hpc] at ha
  cases ha

theorem filter_access (hs : access s.shared (s.tx t) = some (σ, x)) (hbound : σ.writers < 2 ^ 63) :
    FilterInv (s.put t σ x) := by
  have hknown := h.filter.known t
  unfold access at hs
  cases hpc : (s.tx t).pc
  all_goals rw [hpc] at hs
  case commitCas =>
    have hs := Option.some.inj hs
    split at hs <;> cases hs
    · next hlock => exact h.filter_acquire hpc hlock hbound
    · exact h.filter_look hpc rfl rfl (hknown.goto _ trivial)
  all_goals try obtain ⟨rfl, rfl⟩ := pair_eq hs
  case out | body => cases hs
  case beginClock =>
    have hempty : (s.tx t).readSet = [] :=
      (h.base.tx t).outside (congrArg NOrec.Pc.inside (absTx_pc hpc))
    refine h.filter_look hpc rfl ?_ (hknown.begin hpc hempty _)
    unfold Tx.begin
    split
    · exact absTx_pc hpc ▸ rfl
    · rfl
  case beginGen =>
    have hempty := hknown.here
    rw [Checked, hpc] at hempty
    exact h.filter_look hpc rfl rfl (.of_nil hempty le_rfl trivial)
  case readClock a =>
    refine h.filter_look hpc rfl ?_ (hknown.goto _ ?_) <;>
      split <;> first | rfl | trivial
  case readValue a clockBefore =>
    exact h.filter_look hpc rfl rfl (hknown.goto _ trivial)
  case readClockAfter a clockBefore value =>
    refine h.filter_look hpc rfl ?_ (hknown.goto _ ?_) <;>
      split <;> first | rfl | trivial
  case readCheck a value =>
    split
    · next hlock =>
        have heven := ((h.base.tx t).taken (congrArg NOrec.Pc.inside (absTx_pc hpc))).even
        exact h.filter_look hpc rfl rfl
          (hknown.pushRead (h.rebuilt_le_of_lock hlock heven) a value)
    · exact h.filter_look hpc rfl rfl (hknown.goto _ trivial)
  case readAgain a =>
    split
    · exact h.filter_look hpc rfl rfl hknown.abortTx
    · exact h.filter_look hpc rfl rfl (hknown.goto _ trivial)
  case validateClock k =>
    refine h.filter_look hpc rfl ?_ (hknown.validateTime k _)
    unfold Tx.validateTime
    split
    · rfl
    · split
      · rw [absTx_validated, NOrec.Tx.validated_pending]
      · rfl
  case validateGen k time =>
    split
    · next hgen =>
        exact h.filter_look hpc rfl rfl
          (hknown.goto _ fun _ => ⟨hgen, fun j hj => absurd hj (Nat.not_lt_zero j)⟩)
    · exact h.filter_look hpc rfl rfl (hknown.validateExact k time)
  case validateFilter k time i =>
    refine h.filter_look hpc rfl ?_ (hknown.validateWord hpc)
    unfold Tx.validateWord
    split
    · rfl
    · split <;> rfl
  case validateFast k time =>
    split
    · next htime =>
        obtain ⟨-, heven, -⟩ := time_of_validate (h.base.tx t) (absTx_pc hpc)
        refine h.filter_look hpc rfl ?_
          (hknown.validated (fun _ => h.rebuilt_le_of_lock htime heven) k)
        rw [absTx_validated, NOrec.Tx.validated_pending]
    · exact h.filter_look hpc rfl rfl (hknown.goto _ trivial)
  case validateEntries k time rest =>
    cases rest with
    | nil =>
        obtain ⟨rfl, rfl⟩ := pair_eq hs
        split
        · next htime =>
            obtain ⟨-, heven, -⟩ := time_of_validate (h.base.tx t) (absTx_pc hpc)
            refine h.filter_look hpc rfl ?_
              (hknown.validated (fun _ => h.rebuilt_le_of_lock htime heven) k)
            rw [absTx_validated, NOrec.Tx.validated_pending]
        · exact h.filter_look hpc rfl rfl (hknown.goto _ trivial)
    | cons r rest =>
        obtain ⟨rfl, rfl⟩ := pair_eq hs
        split
        · exact h.filter_look hpc rfl rfl (hknown.goto _ trivial)
        · exact h.filter_look hpc rfl rfl hknown.abortTx
  case writeBack rest =>
    obtain ⟨w, hw, rfl, rfl⟩ := map_pair_eq hs
    obtain ⟨rest, rfl⟩ := List.head?_eq_some_iff.1 hw
    exact h.filter_writeBack hpc _
  case insertFirst rest =>
    obtain ⟨w, hw, rfl, rfl⟩ := map_pair_eq hs
    obtain ⟨rest, rfl⟩ := List.head?_eq_some_iff.1 hw
    exact h.filter_insertFirst hpc
  case insertSecond rest =>
    obtain ⟨w, hw, rfl, rfl⟩ := map_pair_eq hs
    obtain ⟨rest, rfl⟩ := List.head?_eq_some_iff.1 hw
    exact h.filter_insertSecond hpc
  case popcount i n =>
    have hfill := h.filter.filling t
    rw [Filling, hpc] at hfill
    refine h.filter_local (by rw [Tx.todo, hpc]) s.shared.ro (hknown.goto _ ?_) ?_
    · split
      · trivial
      · split <;> trivial
    · unfold Tx.counted
      split
      · exact hfill
      · split
        · exact hfill
        · trivial
  case bumpGen =>
    exact h.filter_bumpGen hpc hbound
  case clear i =>
    exact h.filter_clear hpc
  case release =>
    exact h.filter_release hpc hbound

theorem filter_next (hs : next s.shared (s.tx t) t c = some (σ, x)) (hbound : σ.writers < 2 ^ 63) :
    FilterInv (s.put t σ x) := by
  have hknown := h.filter.known t
  cases c with
  | tau => exact h.filter_access hs hbound
  | begin =>
      simp only [next] at hs
      split at hs <;> cases hs
      next hpc =>
          exact h.filter_look hpc rfl rfl (hknown.goto _ trivial)
  | read a =>
      simp only [next] at hs
      split at hs <;> cases hs
      next hpc =>
          refine h.filter_look hpc rfl ?_ (hknown.readWordNorec hpc a)
          unfold Tx.readWordNorec
          split
          · exact absTx_pc hpc ▸ rfl
          · rfl
  | write a v =>
      simp only [next] at hs
      split at hs <;> cases hs
      next hpc =>
          refine h.filter_look hpc rfl ?_ (hknown.writeWordNorec hpc a v)
          unfold Tx.writeWordNorec
          split <;> exact absTx_pc hpc ▸ rfl
  | commit =>
      simp only [next] at hs
      split at hs
      · next hpc =>
          have hs := Option.some.inj hs
          split at hs <;> cases hs
          · exact h.filter_local (not_filling (absTx_pc hpc ▸ rfl) s.shared).2 _ .idle trivial
          · exact h.filter_look hpc rfl rfl (hknown.goto _ trivial)
      · cases hs
  | abort =>
      simp only [next] at hs
      split at hs <;> cases hs
      next hpc =>
          exact h.filter_look hpc rfl rfl hknown.abortTx

theorem step {l : ℕ × TxCall} (hs : NOrecBF.step s l = some s') (hb : Bounded s l s') :
    Inv m₀ s' := by
  obtain ⟨σ, x, hnext, rfl⟩ := Threads.step_eq_some hs
  exact ⟨h.base_next hnext hb.1 hb.2, h.filter_next hnext hb.2⟩

end

theorem run (hr : Run NOrecBF.step Bounded (NOrecBF.init m₀) s) : Inv m₀ s :=
  hr.induction_on (P := Inv m₀) (.init m₀) fun _ _ _ _ h hs hb => h.step hs hb

end Inv

end

end NOrecBF
