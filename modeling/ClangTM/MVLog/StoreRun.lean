import ClangTM.MVLog.StoreSteps

/-!
# Runs of the multi-version log keep what is stored

The accesses of a commit one by one, and the invariant of what is stored along a run.
-/

namespace MVLog

open Serial Transition Ticket

section Sets

variable {T : Type} {port : Port} {m₀ : CellAddr → Word} {S : Store} {x : Tx}

theorem memInv_dirtyFrom {rest : List (CellAddr × Word)} (h : S.mem = value m₀ S.pubs) :
    MemInv port m₀ S (x.dirtyFrom rest) := by
  unfold Tx.dirtyFrom
  split
  · exact h
  · exact h

theorem reading_waitFrom (n : ℕ) : (x.waitFrom n).pc.reading = none := by
  unfold Tx.waitFrom
  dsimp only
  split <;> rfl

theorem foldStore_eq (σ : Shared T) (a : CellAddr) (v : Word) :
    foldStore port σ x a v =
      { σ with mem := if x.skips port a then σ.mem else Function.update σ.mem a v } := by
  unfold foldStore
  split <;> rfl

end Sets

section Access

variable {T : Type} [DecidableEq T] {port : Port} {m₀ : CellAddr → Word}
  {s : Threads (Shared T) Tx T} {t : T} {σ : Shared T} {x : Tx}
  (hslot : SlotInv port s) (h : StoreInv port m₀ s)
include hslot h

omit [DecidableEq T] in
theorem stored_of_holding (hp : (s.tx t).pc.phase.holding = true) :
    s.shared.holder = some t ∧ Stored port m₀ s.shared.store (s.tx t) := by
  have hholder := (hslot.holder t).2 hp
  exact ⟨hholder, work_of_holder hholder ▸ h.stored⟩

/-- A step of a commit that validates or publishes, to the same kind of place. -/
theorem store_decide {p q : Pc} (hpc : (s.tx t).pc = p) (hp : p.phase = .decide)
    (hun : p.unindexed = []) (hq : q.phase = .decide) (hqun : q.unindexed = [])
    (hstore : σ.store = s.shared.store) (hsame : σ.holder = s.shared.holder)
    (hmem : MemInv port m₀ s.shared.store { s.tx t with pc := q })
    (hchecked : Checked port m₀ s.shared.store { s.tx t with pc := q }) :
    StoreInv port m₀ (s.put t σ { s.tx t with pc := q }) := by
  obtain ⟨hholder, hst⟩ := stored_of_holding hslot h (t := t) (by rw [hpc, hp]; rfl)
  refine store_holding h (hsame.trans hholder) (hstore ▸ hst.goto (m := s.shared.mem)
    (hpc ▸ hun) hqun hmem hchecked (fun hd => ?_) fun _ => hpc ▸ hp)
    ((h.tx t).goto rfl rfl rfl (.inl (reading_of_phase ?_)))
  · cases hq.symm.trans hd
  · rw [hq]
    simp

theorem store_validateFrom {p : Pc} {seen rest : List (CellAddr × Word)}
    (hpc : (s.tx t).pc = p) (hp : p.phase = .decide) (hun : p.unindexed = [])
    (hmem : s.shared.mem = value m₀ s.shared.pubs)
    (hreads : (s.tx t).readSet = seen ++ rest) (hseen : Agrees m₀ s.shared.store seen) :
    StoreInv port m₀ (s.put t s.shared ((s.tx t).validateFrom port rest)) := by
  cases rest with
  | nil =>
      refine store_decide hslot h hpc hp hun rfl rfl rfl rfl hmem ?_
      show Agrees m₀ s.shared.store (s.tx t).readSet
      rw [hreads, List.append_nil]
      exact hseen
  | cons r rest =>
      exact store_decide hslot h hpc hp hun rfl rfl rfl rfl hmem
        ⟨⟨seen, hreads, hseen⟩, by cases port <;> trivial⟩

theorem store_pubFrom {p : Pc} (hpc : (s.tx t).pc = p) (hp : p.phase = .decide)
    (hun : p.unindexed = []) (hstore : σ.store = s.shared.store)
    (hsame : σ.holder = s.shared.holder) (hmem : s.shared.mem = value m₀ s.shared.pubs)
    (hagrees : Agrees m₀ s.shared.store (s.tx t).readSet) (i : ℕ) :
    StoreInv port m₀ (s.put t σ ((s.tx t).pubFrom port i)) := by
  unfold Tx.pubFrom
  rw [nextInline_eq]
  split
  · exact store_decide hslot h hpc hp hun rfl rfl hstore hsame hmem hagrees
  · split
    · exact store_decide hslot h hpc hp hun rfl rfl hstore hsame hmem hagrees
    · exact store_decide hslot h hpc hp hun rfl rfl hstore hsame hmem hagrees

theorem store_pubMemFrom {p : Pc} {m : CellAddr → Word} {rest : List (CellAddr × Word)}
    (hpc : (s.tx t).pc = p) (hp : p.phase = .decide) (hun : p.unindexed = [])
    (hstore : σ.store = { s.shared.store with mem := m }) (hsame : σ.holder = s.shared.holder)
    (hmem : MemInv port m₀ { s.shared.store with mem := m } ((s.tx t).pubMemFrom rest))
    (hagrees : Agrees m₀ s.shared.store (s.tx t).readSet) :
    StoreInv port m₀ (s.put t σ ((s.tx t).pubMemFrom rest)) := by
  obtain ⟨hholder, hst⟩ := stored_of_holding hslot h (t := t) (by rw [hpc, hp]; rfl)
  have hagrees' : Agrees m₀ { s.shared.store with mem := m } (s.tx t).readSet := hagrees
  refine store_holding h (hsame.trans hholder) (hstore ▸ hst.goto (hpc ▸ hun) ?_ hmem ?_
    (fun hd => ?_) fun _ => hpc ▸ hp) ((h.tx t).goto rfl rfl rfl (.inl ?_))
  · unfold Tx.pubMemFrom
    split <;> rfl
  · unfold Tx.pubMemFrom
    split
    · exact hagrees'
    · exact hagrees'
  · rw [phase_pubMemFrom] at hd
    cases hd
  · exact reading_of_phase (by rw [phase_pubMemFrom]; simp)

variable (hacc : access port t s.shared (s.tx t) = some (σ, x))
include hacc

theorem store_access_decide (hp : (s.tx t).pc.phase = .decide) :
    StoreInv port m₀ (s.put t σ x) := by
  obtain ⟨hholder, hst⟩ := stored_of_holding hslot h (t := t) (by rw [hp]; rfl)
  have hmem := hst.memory
  have hchecked := hst.checked
  have hpub := (hslot.tx t).publishing
  unfold access at hacc
  unfold MemInv at hmem
  unfold Checked at hchecked
  unfold Tx.Publishing at hpub
  cases hpc : (s.tx t).pc
  all_goals rw [hpc] at hacc hmem hchecked hpub
  all_goals try obtain ⟨rfl, rfl⟩ := pair_eq hacc
  case resolve a k r =>
    cases k with
    | read => simp [hpc, Pc.phase] at hp
    | validate observed rest =>
        obtain ⟨⟨seen, hreads, hseen⟩, hr⟩ := hchecked
        have hspec := resolveStep_spec hslot hst (by rw [hpc]; rfl) hmem hr
        cases hstep : resolveStep port s.shared a r with
        | inl r' =>
            rw [hstep] at hspec
            exact store_decide hslot h hpc rfl rfl rfl rfl rfl rfl hmem
              ⟨⟨seen, hreads, hseen⟩, hspec⟩
        | inr v =>
            rw [hstep] at hspec
            show StoreInv port m₀ (s.put t s.shared (if v = observed then
              (s.tx t).validateFrom port rest else { s.tx t with pc := .conflictRelease }))
            by_cases hv : v = observed
            · rw [if_pos hv]
              have hreads' : (s.tx t).readSet = (seen ++ [(a, observed)]) ++ rest := by
                simp [hreads]
              refine store_validateFrom hslot h hpc rfl rfl hmem hreads' fun q hq => ?_
              rcases List.mem_append.1 hq with hq | hq
              · exact hseen q hq
              · obtain rfl := List.mem_singleton.1 hq
                exact hspec.symm.trans hv
            · rw [if_neg hv]
              exact store_decide hslot h hpc rfl rfl rfl rfl rfl rfl hmem trivial
  case conflictRelease =>
    refine store_release h rfl (hst.release (by rw [hpc]; rfl) hmem) ?_
    cases port with
    | cpp => exact .idle rfl rfl rfl rfl
    | rust => exact (h.tx t).goto rfl rfl rfl (.inl rfl)
  case resetCount =>
    split
    · exact store_decide hslot h hpc rfl rfl rfl rfl rfl rfl hmem hchecked
    · refine store_pubFrom hslot h hpc rfl rfl ?_ ?_ hmem hchecked 0 <;> rfl
  case readOnlyState =>
    refine store_holding h hholder (hst.publish hp (h.tx t) (by rw [hpc]; rfl) hchecked
      (fun a => ?_) rfl rfl rfl hpub.1.symm (fun _ hS => hS) fun _ => trivial)
      ((h.tx t).goto rfl rfl rfl (.inl rfl))
    rw [hpub.1]
    exact congrFun hmem a
  case pubAddr i =>
    obtain ⟨w, hw, rfl, rfl⟩ := map_pair_eq hacc
    exact store_decide hslot h hpc rfl rfl rfl rfl rfl rfl hmem hchecked
  case pubVal i =>
    obtain ⟨w, hw, rfl, rfl⟩ := map_pair_eq hacc
    refine store_pubFrom hslot h hpc rfl rfl ?_ ?_ hmem hchecked (i + 1) <;> rfl
  case pubOverflow =>
    exact store_decide hslot h hpc rfl rfl rfl rfl rfl rfl hmem hchecked
  case pubCount =>
    have hmem : s.shared.mem = value m₀ s.shared.pubs := hmem
    refine store_pubMemFrom (m := s.shared.mem) hslot h hpc rfl rfl rfl rfl
      (memInv_pubMemFrom List.suffix_rfl fun a => ?_) hchecked
    rw [hmem]
    cases (s.tx t).writeSet.lookup a <;> rfl
  case pubMem rest =>
    obtain ⟨w, hw, rfl, rfl⟩ := map_pair_eq hacc
    obtain ⟨rest, rfl⟩ := List.head?_eq_some_iff.1 hw
    exact store_pubMemFrom hslot h hpc rfl rfl rfl rfl
      (memInv_pubMem (h.tx t).buffered.nodup hmem.1 hmem.2) hchecked
  case pubState =>
    have hphase : ((s.tx t).pubIndexFrom (s.tx t).writeSet).pc.phase = .done := by
      unfold Tx.pubIndexFrom
      dsimp only
      split <;> rfl
    refine store_holding h hholder (hst.publish hp (h.tx t)
      (by rw [hpc]; rfl) hchecked hmem hphase rfl rfl ?_ (fun S hS => ?_) fun S => ?_)
      ((h.tx t).goto rfl rfl rfl (.inl (reading_of_phase (by rw [hphase]; simp))))
    · unfold Tx.pubIndexFrom
      split
      · next hnil => rw [hnil]; rfl
      · rfl
    · unfold Tx.pubIndexFrom
      split
      · exact hS
      · exact hS
    · unfold Tx.pubIndexFrom
      split
      · trivial
      · trivial
  all_goals simp [hpc, Pc.phase] at hp

omit hacc in
/-- A step of a commit that has published. -/
theorem store_done {p : Pc} {m : CellAddr → Word} (hpc : (s.tx t).pc = p) (hp : p.phase = .done)
    (hun : p.unindexed = []) (hstore : σ.store = { s.shared.store with mem := m })
    (hsame : σ.holder = s.shared.holder) (hx : GoesOn (s.tx t) x)
    (hmem : MemInv port m₀ { s.shared.store with mem := m } x) :
    StoreInv port m₀ (s.put t σ x) := by
  obtain ⟨hholder, hst⟩ := stored_of_holding hslot h (t := t) (by rw [hpc, hp]; rfl)
  have hq := hx.phase
  have hchecked : Checked port m₀ { s.shared.store with mem := m } x := by
    unfold Checked
    split
    all_goals first
      | trivial
      | (next heq => rw [heq] at hq; cases hq)
  have hqun := hx.unindexed
  obtain ⟨q, rfl⟩ := hx.same
  refine store_holding h (hsame.trans hholder) (hstore ▸ hst.goto (hpc ▸ hun) hqun hmem hchecked
    (fun _ => ⟨hpc ▸ hp, rfl, rfl⟩) fun hd => ?_)
    ((h.tx t).goto rfl rfl rfl (.inl (reading_of_phase (by rw [hq]; simp))))
  cases hq.symm.trans hd

omit hacc in
theorem store_goes {p : Pc} (hpc : (s.tx t).pc = p) (hp : p.phase = .done)
    (hun : p.unindexed = []) (hstore : σ.store = s.shared.store)
    (hsame : σ.holder = s.shared.holder) (hx : GoesOn (s.tx t) x)
    (hmem : MemInv port m₀ s.shared.store x) : StoreInv port m₀ (s.put t σ x) :=
  store_done (m := s.shared.mem) hslot h hpc hp hun hstore hsame hx hmem

theorem store_access_done (hp : (s.tx t).pc.phase = .done)
    (happart : port = .cpp → ∀ a ∈ (s.tx t).pc.foldTarget, (s.tx t).writeSet.lookup a = none) :
    StoreInv port m₀ (s.put t σ x) := by
  obtain ⟨hholder, hst⟩ := stored_of_holding hslot h (t := t) (by rw [hp]; rfl)
  have hmem := hst.memory
  have hsorted : (s.shared.pubs.map Prod.fst).Pairwise (· > ·) := hslot.book.sorted
  have hwaited := (hslot.tx t).waited _ (waited_of_holding (x := s.tx t) (by rw [hp]; rfl))
  obtain ⟨vs, hhead⟩ := hst.head hp
  -- The entries of the window are those of slots that are not live any more.
  have hclosed : ∀ n, (s.tx t).win ≤ n → n < (s.tx t).slot →
      Closed port (s.shared.entry n) n s.shared.pubs := by
    intro n hwin hlt
    refine hslot.dead n (hlt.trans_le hwaited.1) (fun u hu => ?_)
      (.inr ⟨t, by rw [hp]; rfl, hwin⟩)
    have := hwaited.le (t := u) hu
    omega
  unfold access at hacc
  unfold MemInv at hmem
  cases hpc : (s.tx t).pc
  all_goals rw [hpc] at hacc hmem happart
  all_goals try obtain ⟨rfl, rfl⟩ := pair_eq hacc
  case readOnlyRelease =>
    exact store_release h rfl (hst.release (by rw [hpc]; rfl) hmem) (.idle rfl rfl rfl rfl)
  case pubIndex rest =>
    obtain ⟨w, hw, rfl, rfl⟩ := map_pair_eq hacc
    obtain ⟨rest, rfl⟩ := List.head?_eq_some_iff.1 hw
    refine store_holding h hholder (hst.pubIndex hpc (h.tx t).buffered.nodup)
      ((h.tx t).goto rfl rfl rfl (.inl ?_))
    unfold Tx.pubIndexFrom
    dsimp only
    split <;> rfl
  case dueWm =>
    split
    · exact store_goes hslot h hpc rfl rfl rfl rfl (goesOn_foldFrom _)
        (memInv_foldFrom le_rfl fun a => .inl (congrFun hmem a))
    · exact store_goes hslot h hpc rfl rfl rfl rfl (goesOn_dirtyFrom _) (memInv_dirtyFrom hmem)
  case foldTag n =>
    have hat : FoldingAt m₀ s.shared.store (s.tx t) n := hmem
    rw [if_pos (hclosed n hat.win hat.slot).tag]
    exact store_goes hslot h hpc rfl rfl rfl rfl (goesOn_pc rfl rfl)
      ⟨hat.win, hat.slot, hat.folding⟩
  case foldState n =>
    have hat : FoldingAt m₀ s.shared.store (s.tx t) n := hmem
    have hc := hclosed n hat.win hat.slot
    by_cases hpub : ∃ ws, (n, ws) ∈ s.shared.pubs
    · obtain ⟨ws, hws⟩ := hpub
      rw [if_pos (hc.published ws hws).1]
      exact store_goes hslot h hpc rfl rfl rfl rfl (goesOn_pc rfl rfl)
        ⟨ws, hat.win, hat.slot, hws, List.suffix_rfl, hat.folding.enter hsorted hws⟩
    · have hno : ∀ ws, (n, ws) ∉ s.shared.pubs := not_exists.1 hpub
      rw [if_neg (hc.unpublished hno)]
      exact store_goes hslot h hpc rfl rfl rfl rfl (goesOn_foldFrom _)
        (memInv_foldFrom (Nat.le_succ_of_le hat.win) (hat.folding.skip hno))
  case foldCount n =>
    obtain ⟨ws, hin⟩ := hmem
    obtain ⟨-, hholds⟩ := (hclosed n hin.win hin.slot).published ws hin.mem
    rw [hholds.count]
    exact store_done hslot h hpc rfl rfl rfl rfl (goesOn_foldInline ..) (memInv_foldInline hin)
  case foldAddr n len i =>
    obtain ⟨ws, hin, rfl, hi⟩ := hmem
    obtain ⟨-, hholds⟩ := (hclosed n hin.win hin.slot).published ws hin.mem
    have hlt : i < ws.length := hi.trans_le (inlineLen_le port _)
    have hget : ws[i]? = some ws[i] := List.getElem?_eq_getElem hlt
    exact store_goes hslot h hpc rfl rfl rfl rfl (goesOn_pc rfl rfl)
      ⟨ws, ws[i], ⟨hin.1, hin.2, hin.3, hin.4, hin.5⟩, rfl, hi, hget,
        (hholds.inline i hi _ hget).1.symm⟩
  case foldVal n len i a =>
    obtain ⟨ws, w, hin, rfl, hi, hget, rfl⟩ := hmem
    obtain ⟨-, hholds⟩ := (hclosed n hin.win hin.slot).published ws hin.mem
    exact store_goes hslot h hpc rfl rfl rfl rfl (goesOn_pc rfl rfl)
      ⟨ws, ⟨hin.1, hin.2, hin.3, hin.4, hin.5⟩, rfl, hi,
        by rw [(hholds.inline i hi w hget).2]; exact hget⟩
  case foldMem n len i a v =>
    obtain ⟨ws, hin, rfl, hi, hget⟩ := hmem
    have hdrop : ws.drop i = (a, v) :: ws.drop (i + 1) := by
      obtain ⟨hlt, heq⟩ := List.getElem?_eq_some_iff.1 hget
      rw [List.drop_eq_getElem_cons hlt, heq]
    rw [hdrop] at hin
    have hin' := foldingIn_store hsorted port hst.nodup hhead
      (fun hcpp => happart hcpp a rfl) hin
    rw [foldStore_eq]
    exact store_done hslot h hpc rfl rfl rfl rfl (goesOn_foldInline ..) (memInv_foldInline hin')
  case foldOverflow n =>
    obtain ⟨ws, hin, hlong⟩ := hmem
    obtain ⟨-, hholds⟩ := (hclosed n hin.win hin.slot).published ws hin.mem
    rw [hholds.overflow hlong, Option.getD_some]
    exact store_done hslot h hpc rfl rfl rfl rfl (goesOn_foldRestFrom ..) (memInv_foldRestFrom hin)
  case foldRest n rest =>
    obtain ⟨w, hw, rfl, rfl⟩ := map_pair_eq hacc
    obtain ⟨rest, rfl⟩ := List.head?_eq_some_iff.1 hw
    obtain ⟨ws, hin⟩ := hmem
    have hin' := foldingIn_store hsorted port hst.nodup hhead
      (fun hcpp => happart hcpp w.1 rfl) hin
    rw [foldStore_eq]
    exact store_done hslot h hpc rfl rfl rfl rfl (goesOn_foldRestFrom ..)
      (memInv_foldRestFrom hin')
  case storeWm =>
    refine store_holding h hholder ⟨hst.nodup, hmem, ⟨List.nil_suffix, fun a => ?_⟩, trivial,
      fun _ => ⟨vs, hhead⟩, ⟨hst.hist.leaves, hst.hist.later, hst.hist.legal, fun hd => ?_⟩⟩
      ((h.tx t).goto rfl rfl rfl (.inl rfl))
    · exact hst.index_eq (by rw [hpc]; rfl) a
    · cases hd
  case clear i =>
    split
    · exact store_goes hslot h hpc rfl rfl rfl rfl (goesOn_pc rfl rfl) hmem
    · exact store_goes hslot h hpc rfl rfl rfl rfl (goesOn_dirtyFrom _) (memInv_dirtyFrom hmem)
  case dirtyFirst rest =>
    obtain ⟨w, hw, rfl, rfl⟩ := map_pair_eq hacc
    exact store_goes hslot h hpc rfl rfl rfl rfl (goesOn_pc rfl rfl) hmem
  case dirtySecond rest =>
    obtain ⟨w, hw, rfl, rfl⟩ := map_pair_eq hacc
    exact store_goes hslot h hpc rfl rfl rfl rfl (goesOn_dirtyFrom _) (memInv_dirtyFrom hmem)
  case release =>
    exact store_release h rfl (hst.release (by rw [hpc]; rfl) hmem) (.idle rfl rfl rfl rfl)
  case resolve a k r => cases k <;> simp [hpc, Pc.phase] at hp
  all_goals simp [hpc, Pc.phase] at hp

omit hacc in
/-- A step of a thread outside the commit lock that changes at most the log and the slots. -/
theorem store_quiet {p : Pc} (hpc : (s.tx t).pc = p) (hp : p.phase.holding = false)
    (hstore : σ.store = s.shared.store) (hsame : σ.holder = s.shared.holder)
    (hx : Buffering x) : StoreInv port m₀ (s.put t σ x) := by
  refine store_outside h hstore hsame (fun hholder => ?_) hx
  rw [← hpc, (hslot.holder t).1 hholder] at hp
  cases hp

omit hacc in
theorem store_goto {p q : Pc} (hpc : (s.tx t).pc = p) (hp : p.phase.holding = false)
    (hq : q.reading = none) (hstore : σ.store = s.shared.store)
    (hsame : σ.holder = s.shared.holder) : StoreInv port m₀ (s.put t σ { s.tx t with pc := q }) :=
  store_quiet hslot h hpc hp hstore hsame ((h.tx t).goto rfl rfl rfl (.inl hq))

theorem store_access_run (hp : (s.tx t).pc.phase = .run) : StoreInv port m₀ (s.put t σ x) := by
  unfold access at hacc
  cases hpc : (s.tx t).pc
  all_goals rw [hpc] at hacc
  all_goals try obtain ⟨rfl, rfl⟩ := pair_eq hacc
  case body =>
    cases hacc
  case bloomFirst a =>
    refine store_quiet hslot h hpc rfl rfl rfl ((h.tx t).goto rfl rfl rfl (.inr ?_))
    rw [hpc]
    dsimp only
    split <;> rfl
  case bloomSecond a =>
    refine store_quiet hslot h hpc rfl rfl rfl ((h.tx t).goto rfl rfl rfl (.inr ?_))
    rw [hpc]
    dsimp only
    split <;> rfl
  case readMem a =>
    exact store_quiet hslot h hpc rfl rfl rfl ((h.tx t).observe (by rw [hpc]; rfl) _)
  case resolve a k r =>
    cases k with
    | read =>
        have hreading : (s.tx t).pc.reading = some a := by rw [hpc]; rfl
        split
        · exact store_quiet hslot h hpc rfl rfl rfl ((h.tx t).goto rfl rfl rfl (.inr hreading.symm))
        · exact store_quiet hslot h hpc rfl rfl rfl ((h.tx t).observe hreading _)
    | validate observed rest => simp [hpc, Pc.phase] at hp
  case commitWm =>
    exact store_quiet hslot h hpc rfl rfl rfl ((h.tx t).goto rfl rfl rfl
      (.inl (reading_waitFrom _)))
  all_goals simp [hpc, Pc.phase] at hp

theorem store_access_lock (hpc : (s.tx t).pc = .lock) : StoreInv port m₀ (s.put t σ x) := by
  unfold access at hacc
  rw [hpc] at hacc
  have hacc := Option.some.inj hacc
  unfold acquire at hacc
  by_cases hfree : s.shared.gCommitLock = true
  · rw [if_pos hfree] at hacc
    obtain ⟨rfl, rfl⟩ := Prod.mk.inj hacc
    exact store_quiet hslot h hpc rfl rfl rfl (h.tx t)
  · rw [if_neg hfree] at hacc
    obtain ⟨rfl, rfl⟩ := Prod.mk.inj hacc
    have hnone : s.shared.holder = none := by
      have := hslot.lock
      rw [Bool.not_eq_true] at hfree
      rw [hfree] at this
      simpa using this.symm
    have hst : Stored port m₀ s.shared.store {} := by
      have := h.stored
      rwa [work, hnone] at this
    have hmem : s.shared.mem = value m₀ s.shared.pubs := hst.memory
    -- The turn that begins is empty.
    have htaken : ∀ x' : Tx, x'.pc.unindexed = [] → x'.pc.phase = .decide →
        MemInv port m₀ { s.shared.store with turn := s.shared.turn + 1 } x' →
        Checked port m₀ { s.shared.store with turn := s.shared.turn + 1 } x' →
        Stored port m₀ { s.shared.store with turn := s.shared.turn + 1 } x' := by
      intro x' hun hdecide hmem' hchecked
      have hempty : s.shared.history (s.shared.turn + 1) = none := hst.hist.later _
          (Nat.lt_succ_self _)
      refine ⟨hst.nodup, hmem', ⟨hun ▸ List.nil_suffix, fun a => ?_⟩, hchecked, fun hd => ?_,
        ⟨(memAt_succ_of_none hempty).trans hst.hist.leaves, fun n hn => ?_, hst.hist.legal,
          fun _ => ⟨Nat.succ_pos _, hempty⟩⟩⟩
      · rw [hun]
        exact hst.index_eq rfl a
      · rw [hdecide] at hd
        cases hd
      · exact hst.hist.later n ((Nat.lt_succ_self _).trans hn)
    cases hreads : (s.tx t).readSet with
    | nil =>
        refine store_holding h rfl (htaken _ rfl rfl hmem fun r hr => ?_)
          ((h.tx t).goto rfl rfl rfl (.inl rfl))
        have hr : r ∈ (s.tx t).readSet := hr
        rw [hreads] at hr
        cases hr
    | cons r rest =>
        exact store_holding h rfl (htaken _ rfl rfl hmem
          ⟨⟨[], hreads, fun _ hq => by cases hq⟩, by cases port <;> trivial⟩)
          ((h.tx t).goto rfl rfl rfl (.inl rfl))

theorem store_access
    (happart : port = .cpp → ∀ a ∈ (s.tx t).pc.foldTarget, (s.tx t).writeSet.lookup a = none) :
    StoreInv port m₀ (s.put t σ x) := by
  have hacc' := hacc
  unfold access at hacc
  cases hpc : (s.tx t).pc
  all_goals rw [hpc] at hacc
  all_goals try obtain ⟨rfl, rfl⟩ := pair_eq hacc
  case out =>
    cases hacc
  case beginMark | claim | beginTag =>
    exact store_goto hslot h hpc rfl rfl rfl rfl
  case beginState n =>
    exact store_quiet hslot h hpc rfl rfl rfl (.idle rfl rfl rfl rfl)
  case waitState n | waitTag n =>
    split
    · exact store_goto hslot h hpc rfl rfl rfl rfl
    · exact store_goto hslot h hpc rfl (reading_waitFrom _) rfl rfl
  case lock => exact store_access_lock hslot h hacc' hpc
  case conflictState =>
    exact store_quiet hslot h hpc rfl rfl rfl (.idle rfl rfl rfl rfl)
  case resolve a k r =>
    cases k with
    | read => exact store_access_run hslot h hacc' (by rw [hpc]; rfl)
    | validate observed rest => exact store_access_decide hslot h hacc' (by rw [hpc]; rfl)
  case body | bloomFirst | bloomSecond | readMem | commitWm =>
    exact store_access_run hslot h hacc' (by rw [hpc]; rfl)
  case conflictRelease | resetCount | readOnlyState | pubAddr | pubVal | pubOverflow | pubCount
      | pubMem | pubState =>
    exact store_access_decide hslot h hacc' (by rw [hpc]; rfl)
  case readOnlyRelease | pubIndex | dueWm | foldTag | foldState | foldCount | foldAddr | foldVal
      | foldMem | foldOverflow | foldRest | storeWm | clear | dirtyFirst | dirtySecond | release =>
    exact store_access_done hslot h hacc' (by rw [hpc]; rfl) happart

omit hacc in
theorem store_next {c : TmCall CellAddr} (hnext : next port t s.shared (s.tx t) c = some (σ, x))
    (happart : port = .cpp → ∀ a ∈ (s.tx t).pc.foldTarget, (s.tx t).writeSet.lookup a = none) :
    StoreInv port m₀ (s.put t σ x) := by
  rcases next_eq_some hnext with ⟨rfl, hacc⟩ | ⟨rfl, hcall⟩
  · exact store_access hslot h hacc happart
  cases hcall with
  | weak hpc => exact store_quiet hslot h hpc rfl rfl rfl (h.tx t)
  | begin hpc =>
      refine store_goto hslot h hpc rfl ?_ rfl rfl
      split <;> rfl
  | restart hpc | commit hpc => exact store_goto hslot h hpc rfl rfl rfl rfl
  | read a hpc =>
      exact store_quiet hslot h hpc rfl rfl rfl ((h.tx t).readWord (by rw [hpc]; rfl) a)
  | write a v hpc =>
      exact store_quiet hslot h hpc rfl rfl rfl ((h.tx t).writeWord (by rw [hpc]; rfl) a v)
  | abort hpc => exact store_quiet hslot h hpc rfl rfl rfl (.idle rfl rfl rfl rfl)

end Access

section Run

variable {T : Type} [DecidableEq T] {port : Port} {m₀ : CellAddr → Word}
  {s : Threads (Shared T) Tx T}

omit [DecidableEq T] in
theorem storeInv_init (port : Port) (m₀ : CellAddr → Word) : StoreInv port m₀ (init T m₀) where
  stored :=
    { nodup := fun _ he => by cases he
      memory := rfl
      index := ⟨List.nil_suffix, fun _ => rfl⟩
      checked := trivial
      head := fun hd => by cases hd
      hist := ⟨rfl, fun _ _ => rfl, fun _ _ _ hw => (by cases hw), fun hd => by cases hd⟩ }
  tx _ := .idle rfl rfl rfl rfl

/-- Every step is orderly, and the fold stays off the cells that the committer has written. -/
def Ordered (port : Port) (s : Threads (Shared T) Tx T) (l : T × TmCall CellAddr)
    (s' : Threads (Shared T) Tx T) : Prop :=
  Orderly s l s' ∧ FoldApart port s l s'

instance [Fintype T] (port : Port) (s : Threads (Shared T) Tx T) (l : T × TmCall CellAddr)
    (s' : Threads (Shared T) Tx T) : Decidable (Ordered port s l s') :=
  inferInstanceAs (Decidable (_ ∧ _))

theorem storeInv_run (hr : Run (step port) (Ordered port) (init T m₀) s) : StoreInv port m₀ s := by
  refine hr.induction_on (storeInv_init port m₀) fun s₁ l s₂ hr₁ h hs hb => ?_
  obtain ⟨σ, x, hnext, rfl⟩ := Threads.step_eq_some hs
  exact store_next (slotInv_run (fun _ _ _ hok => hok.1) hr₁) h hnext hb.2

end Run

end MVLog
