import ClangTM.MVLog.Store

/-!
# The steps of the multi-version log and what they store

Every step keeps `StoreInv`, provided that the slots are in order and that the fold does not
store to a cell that the committer has written itself. The Rust port makes sure of the latter;
for the C++ port it is the condition `FoldApart`.
-/

namespace MVLog

open Serial Transition Ticket

def Pc.foldTarget : Pc → Option CellAddr
  | .foldMem _ _ _ a _ => some a
  | .foldRest _ (w :: _) => some w.1
  | _ => none

/-- The fold of the C++ port does not store to a cell that the committer has written. -/
def FoldApart {T : Type} (port : Port) (s : Threads (Shared T) Tx T) (l : T × TmCall CellAddr)
    (_ : Threads (Shared T) Tx T) : Prop :=
  port = .cpp → ∀ a ∈ (s.tx l.1).pc.foldTarget, (s.tx l.1).writeSet.lookup a = none

instance {T : Type} (port : Port) (s : Threads (Shared T) Tx T) (l : T × TmCall CellAddr)
    (s' : Threads (Shared T) Tx T) : Decidable (FoldApart port s l s') :=
  inferInstanceAs (Decidable (_ → ∀ a ∈ (s.tx l.1).pc.foldTarget, _))

section Stored

variable {port : Port} {m₀ : CellAddr → Word} {S : Store} {x x' : Tx} {m : CellAddr → Word}

/-- A step of the holder of the commit lock that changes nothing or only memory. -/
theorem Stored.goto (h : Stored port m₀ S x) (hun : x.pc.unindexed = [])
    (hun' : x'.pc.unindexed = []) (hmem : MemInv port m₀ { S with mem := m } x')
    (hchecked : Checked port m₀ { S with mem := m } x')
    (hhead : x'.pc.phase = .done →
      x.pc.phase = .done ∧ x'.slot = x.slot ∧ x'.writeSet = x.writeSet)
    (hempty : x'.pc.phase = .decide → x.pc.phase = .decide) :
    Stored port m₀ { S with mem := m } x' where
  nodup := h.nodup
  memory := hmem
  index := by
    refine ⟨hun' ▸ List.nil_suffix, fun a => ?_⟩
    rw [hun']
    have := h.index.eq a
    rwa [hun] at this
  checked := hchecked
  head hd := by
    obtain ⟨hdone, hslot, hws⟩ := hhead hd
    rw [hslot, hws]
    exact h.head hdone
  hist := ⟨h.hist.leaves, h.hist.later, h.hist.legal, fun hd => h.hist.empty (hempty hd)⟩

theorem Stored.release (h : Stored port m₀ S x) (hun : x.pc.unindexed = [])
    (hmem : S.mem = value m₀ S.pubs) : Stored port m₀ S {} :=
  h.goto (m := S.mem) hun rfl hmem trivial (fun hd => by cases hd) (fun hd => by cases hd)

theorem Stored.index_eq (h : Stored port m₀ S x) (hun : x.pc.unindexed = []) (a : CellAddr) :
    S.gIndex a = (latest S.pubs a).map Prod.fst := by
  have := h.index.eq a
  rwa [hun] at this

section Fold

variable (hs : (S.pubs.map Prod.fst).Pairwise (· > ·))

theorem memInv_foldFrom {n : ℕ} (hwin : x.win ≤ n) (h : Folding m m₀ S.pubs n x.slot) :
    MemInv port m₀ { S with mem := m } (x.foldFrom n) := by
  unfold Tx.foldFrom
  split
  · next hlt => exact ⟨hwin, hlt, h⟩
  · next hge => exact h.done (Nat.not_lt.1 hge)

theorem memInv_leave {n : ℕ} {ws : List (CellAddr × Word)}
    (h : FoldingIn m₀ { S with mem := m } x n ws []) :
    MemInv port m₀ { S with mem := m } (x.foldFrom (n + 1)) :=
  memInv_foldFrom (Nat.le_succ_of_le h.win) h.folding.leave

theorem memInv_foldRestFrom {n : ℕ} {ws rest : List (CellAddr × Word)}
    (h : FoldingIn m₀ { S with mem := m } x n ws rest) :
    MemInv port m₀ { S with mem := m } (x.foldRestFrom n rest) := by
  unfold Tx.foldRestFrom
  split
  · next hnil => exact memInv_leave (hnil ▸ h)
  · exact ⟨ws, h.1, h.2, h.3, h.4, h.5⟩

theorem memInv_foldInline {n i : ℕ} {ws : List (CellAddr × Word)}
    (h : FoldingIn m₀ { S with mem := m } x n ws (ws.drop i)) :
    MemInv port m₀ { S with mem := m } (x.foldInline port n ws.length i) := by
  unfold Tx.foldInline
  rw [nextInline_eq]
  by_cases hlt : i < inlineLen port ws.length
  · rw [if_pos hlt]
    exact ⟨ws, ⟨h.1, h.2, h.3, h.4, h.5⟩, rfl, hlt⟩
  · rw [if_neg hlt]
    by_cases hlong : kMaxInlineWs < ws.length
    · rw [if_pos hlong]
      refine ⟨ws, ⟨h.1, h.2, h.3, List.suffix_rfl, h.folding.mono fun a ha => ?_⟩, hlong⟩
      obtain ⟨w, hw, heq⟩ := List.lookup_isSome_iff.1 ha
      exact List.lookup_isSome_iff.2 ⟨w, h.sub.subset hw, heq⟩
    · rw [if_neg hlong]
      have hnil : ws.drop i = [] := by
        rw [inlineLen_of_le (Nat.not_lt.1 hlong)] at hlt
        exact List.drop_eq_nil_of_le (Nat.not_lt.1 hlt)
      exact memInv_leave (hnil ▸ h)

include hs

/-- The store of the next entry, or none if the committer has written the cell. -/
theorem foldingIn_store (port : Port) {n : ℕ} {ws rest vs} {w : CellAddr × Word}
    (hnodup : ∀ e ∈ S.pubs, (e.2.map Prod.fst).Nodup)
    (hhead : S.pubs = (x.slot, x.writeSet) :: vs)
    (happart : port = .cpp → x.writeSet.lookup w.1 = none)
    (h : FoldingIn m₀ S x n ws (w :: rest)) :
    FoldingIn m₀ { S with mem := if x.skips port w.1 then S.mem else Function.update S.mem w.1 w.2 }
      x n ws rest := by
  have hlook : ws.lookup w.1 = some w.2 :=
    lookup_of_mem (hnodup _ h.mem) (h.sub.subset List.mem_cons_self)
  refine ⟨h.win, h.slot, h.mem, (List.suffix_cons w rest).trans h.sub, ?_⟩
  cases hown : x.writeSet.lookup w.1 with
  | some v =>
      have hrust : port = .rust := by
        cases port with
        | cpp =>
            rw [happart rfl] at hown
            cases hown
        | rust => rfl
      have hskip : x.skips port w.1 = true := by simp [Tx.skips, hrust, hown]
      have hlatest : latest S.pubs w.1 = some (x.slot, v) := by
        rw [hhead]
        exact latest_cons_of_some hown
      rw [if_pos hskip]
      exact FoldingEntry.skip h.folding h.slot hlatest le_rfl
  | none =>
      have hskip : ¬x.skips port w.1 = true := by simp [Tx.skips, hown]
      rw [if_neg hskip]
      refine FoldingEntry.store hs h.folding h.mem hlook fun p v hp => ?_
      rw [hhead, latest_cons_of_none hown] at hp
      obtain ⟨ws', hmem, -⟩ := mem_of_latest hp
      rw [hhead, List.map_cons, List.pairwise_cons] at hs
      exact hs.1 p (List.mem_map_of_mem hmem)

end Fold

section PubMem

theorem memInv_pubMemFrom {rest : List (CellAddr × Word)} (hsub : rest <:+ x.writeSet)
    (h : ∀ a, m a = if (rest.lookup a).isSome then value m₀ S.pubs a
      else (x.writeSet.lookup a).getD (value m₀ S.pubs a)) :
    MemInv port m₀ { S with mem := m } (x.pubMemFrom rest) := by
  unfold Tx.pubMemFrom
  split
  · next hnil =>
      subst hnil
      exact h
  · exact ⟨hsub, h⟩

theorem memInv_pubMem {w : CellAddr × Word} {rest : List (CellAddr × Word)}
    (hnodup : (x.writeSet.map Prod.fst).Nodup) (hsub : w :: rest <:+ x.writeSet)
    (h : ∀ a, S.mem a = if ((w :: rest).lookup a).isSome then value m₀ S.pubs a
      else (x.writeSet.lookup a).getD (value m₀ S.pubs a)) :
    MemInv port m₀ { S with mem := Function.update S.mem w.1 w.2 } (x.pubMemFrom rest) := by
  refine memInv_pubMemFrom ((List.suffix_cons w rest).trans hsub) fun a => ?_
  have hrest : ((w :: rest).map Prod.fst).Nodup := (hsub.map Prod.fst).sublist.nodup hnodup
  by_cases ha : a = w.1
  · subst ha
    have hnone : rest.lookup w.1 = none := by
      refine List.lookup_eq_none_iff.2 fun p hp => ?_
      rw [bne_iff_ne]
      exact fun heq => (List.nodup_cons.1 hrest).1 (heq ▸ List.mem_map_of_mem hp)
    rw [Function.update_self, hnone, lookup_of_mem hnodup (hsub.subset List.mem_cons_self)]
    rfl
  · rw [Function.update_of_ne ha, h a, lookup_cons_eq, if_neg ha]

end PubMem

section Publish

theorem Stored.publish (h : Stored port m₀ S x) (hp : x.pc.phase = .decide) (hb : Buffering x)
    (hun : x.pc.unindexed = []) (hagrees : Agrees m₀ S x.readSet)
    (hmem : ∀ a, S.mem a = (x.writeSet.lookup a).getD (value m₀ S.pubs a))
    (hq : x'.pc.phase = .done) (hslot : x'.slot = x.slot) (hws : x'.writeSet = x.writeSet)
    (hun' : x'.pc.unindexed = x.writeSet)
    (hmem' : ∀ S' : Store, S'.mem = value m₀ S'.pubs → MemInv port m₀ S' x')
    (hchecked : ∀ S', Checked port m₀ S' x') :
    Stored port m₀
      { S with
        history := enter S.history S.turn x.ops
        pubs := (x.slot, x.writeSet) :: S.pubs } x' := by
  obtain ⟨hpos, hnone⟩ := h.hist.empty hp
  have hbefore : memAt m₀ S.history (S.turn - 1) = value m₀ S.pubs := by
    rw [← h.hist.leaves]
    obtain ⟨k, hk⟩ := Nat.exists_eq_succ_of_ne_zero hpos.ne'
    rw [hk] at hnone ⊢
    exact (memAt_succ_of_none hnone).symm
  have hkeep : ∀ k, k < S.turn →
      memAt m₀ (enter S.history S.turn x.ops) k = memAt m₀ S.history k := fun k hk =>
    memAt_enter_of_lt x.ops hk
  refine
    { nodup := ?_
      memory := hmem' _ (funext fun a => ?_)
      index := ⟨?_, fun a => ?_⟩
      checked := hchecked _
      head := fun _ => ⟨S.pubs, by rw [hslot, hws]⟩
      hist := ⟨funext fun a => ?_, fun n hn => ?_, fun n w hn hw => ?_, fun hd => ?_⟩ }
  · intro e he
    rcases List.mem_cons.1 he with rfl | he
    · exact hb.buffered.nodup
    · exact h.nodup e he
  · rw [value_cons]
    exact hmem a
  · rw [hun', hws]
  · rw [hun']
    show S.gIndex a = _
    rw [h.index_eq hun]
    cases ha : x.writeSet.lookup a with
    | none =>
        rw [if_neg (by simp)]
        exact congrArg _ (latest_cons_of_none ha).symm
    | some v => rw [if_pos (by simp)]; rfl
  · rw [memAt_pred_of_some (enter_self _ _ _) hpos, hkeep _ (by omega), hbefore, value_cons]
    exact hb.buffered.final_eq _ a
  · have hn : S.turn < n := hn
    show enter S.history S.turn x.ops n = none
    rw [enter_of_ne _ (by omega)]
    exact h.hist.later n hn
  · have hw : enter S.history S.turn x.ops n = some w := hw
    show Legal (memAt m₀ (enter S.history S.turn x.ops) (n - 1)) w
    by_cases heq : n = S.turn
    · subst heq
      rw [enter_self] at hw
      obtain rfl := Option.some.inj hw
      rw [hkeep _ (by omega), hbefore]
      exact hb.buffered.legal hagrees
    · rw [enter_of_ne _ heq] at hw
      have hle : n ≤ S.turn := by
        by_contra hgt
        rw [h.hist.later n (Nat.not_le.1 hgt)] at hw
        cases hw
      rw [hkeep _ (by omega)]
      exact h.hist.legal n w hn hw
  · rw [hq] at hd
    cases hd

theorem Stored.pubIndex {w : CellAddr × Word} {rest : List (CellAddr × Word)}
    (h : Stored port m₀ S x) (hp : x.pc = .pubIndex (w :: rest))
    (hnodup : (x.writeSet.map Prod.fst).Nodup) :
    Stored port m₀ { S with gIndex := Function.update S.gIndex w.1 (some x.slot) }
      (x.pubIndexFrom rest) := by
  have hphase : x.pc.phase = .done := by rw [hp]; rfl
  have hun : x.pc.unindexed = w :: rest := by rw [hp]; rfl
  have hsub : w :: rest <:+ x.writeSet := hun ▸ h.index.sub
  have hrest : ((w :: rest).map Prod.fst).Nodup := (hsub.map Prod.fst).sublist.nodup hnodup
  have hun' : (x.pubIndexFrom rest).pc.unindexed = rest := by
    unfold Tx.pubIndexFrom
    split
    · next hnil => rw [hnil]; rfl
    · rfl
  have hmem : S.mem = value m₀ S.pubs := by
    have := h.memory
    unfold MemInv at this
    rwa [hp] at this
  obtain ⟨vs, hhead⟩ := h.head hphase
  refine
    { nodup := h.nodup
      memory := ?_
      index := ⟨?_, fun a => ?_⟩
      checked := ?_
      head := fun _ => h.head hphase
      hist := ⟨h.hist.leaves, h.hist.later, h.hist.legal, fun hd => ?_⟩ }
  · unfold Tx.pubIndexFrom
    split
    · exact hmem
    · exact hmem
  · rw [hun']
    exact (List.suffix_cons w rest).trans hsub
  · rw [hun']
    by_cases ha : a = w.1
    · subst ha
      have hnone : rest.lookup w.1 = none := by
        refine List.lookup_eq_none_iff.2 fun p hp => ?_
        rw [bne_iff_ne]
        exact fun heq => (List.nodup_cons.1 hrest).1 (heq ▸ List.mem_map_of_mem hp)
      have hlook := lookup_of_mem hnodup (hsub.subset List.mem_cons_self)
      rw [if_neg (by simp [hnone])]
      show Function.update S.gIndex w.1 (some x.slot) w.1 = (latest S.pubs w.1).map Prod.fst
      rw [Function.update_self, hhead, latest_cons_of_some hlook]
      rfl
    · show Function.update S.gIndex w.1 (some x.slot) a = _
      have hold := h.index.eq a
      rw [hun, lookup_cons_eq, if_neg ha] at hold
      rw [Function.update_of_ne ha, hold]
  · unfold Tx.pubIndexFrom
    split
    · trivial
    · trivial
  · have : (x.pubIndexFrom rest).pc.phase = .done := by
      unfold Tx.pubIndexFrom
      dsimp only
      split <;> rfl
    rw [this] at hd
    cases hd

end Publish

end Stored

section Resolve

variable {T : Type} {port : Port} {m₀ : CellAddr → Word} {s : Threads (Shared T) Tx T} {x : Tx}
  {a : CellAddr} {ws : List (CellAddr × Word)}

theorem holds_of_pub (h : SlotInv port s) {p : ℕ} (hmem : (p, ws) ∈ s.shared.pubs)
    (hkept : Kept s p) :
    (s.shared.entry p).tag = tagOf port p ∧ (s.shared.entry p).state = .committed ∧
      Holds port (s.shared.entry p) ws := by
  have hsettled := h.book.served p (List.mem_map_of_mem hmem)
  have hclosed := h.dead p hsettled.1 (fun u hu => ?_) hkept
  · exact ⟨hclosed.tag, hclosed.published ws hmem⟩
  · have := hsettled.le (t := u) hu
    omega

theorem resolveInv_scan {p i : ℕ} {S : Store} (hpoint : Pointed S a p) (hmem : (p, ws) ∈ S.pubs) :
    ResolveInv port m₀ S a (.scan port p ws.length i) := by
  unfold Resolve.scan
  rw [nextInline_eq]
  split
  · next hlt => exact ⟨hpoint, ws, hmem, rfl, hlt⟩
  · split
    · next hlong => exact ⟨hpoint, ws, hmem, hlong⟩
    · cases port <;> trivial

theorem value_of_entry (hs : (s.shared.pubs.map Prod.fst).Pairwise (· > ·)) {p : ℕ} {v : Word}
    (hpoint : Pointed s.shared.store a p) (hmem : (p, ws) ∈ s.shared.pubs)
    (hv : ws.lookup a = some v) : v = value m₀ s.shared.pubs a := by
  obtain ⟨⟨u, hu⟩, -⟩ := hpoint
  obtain ⟨ws', hmem', hlook⟩ := mem_of_latest hu
  obtain rfl := eq_of_mem hs hmem hmem'
  obtain rfl : v = u := Option.some.inj (hv.symm.trans hlook)
  exact (value_of_latest hu).symm

theorem resolveStep_spec (h : SlotInv port s) (hst : Stored port m₀ s.shared.store x)
    (hun : x.pc.unindexed = []) (hmem : s.shared.mem = value m₀ s.shared.pubs) {r : Resolve}
    (hr : ResolveInv port m₀ s.shared.store a r) :
    match resolveStep port s.shared a r with
    | .inl r' => ResolveInv port m₀ s.shared.store a r'
    | .inr v => v = value m₀ s.shared.pubs a := by
  have hindex := hst.index_eq hun a
  have hsorted : (s.shared.pubs.map Prod.fst).Pairwise (· > ·) := h.book.sorted
  have hstart : ResolveInv port m₀ s.shared.store a (.start port) := by cases port <;> trivial
  have hmissed : ResolveInv port m₀ s.shared.store a (.missed port) := by cases port <;> trivial
  have hfound : ResolveInv port m₀ s.shared.store a (.found (s.shared.gIndex a) s.shared.gWm) := by
    have hindex : s.shared.gIndex a = (latest s.shared.pubs a).map Prod.fst := hindex
    cases hlast : latest s.shared.pubs a with
    | none =>
        rw [hindex, hlast]
        trivial
    | some e =>
        rw [hindex, hlast]
        show ResolveInv port m₀ s.shared.store a (if e.1 < s.shared.gWm then .mem else .tag e.1)
        split
        · trivial
        · next hge => exact ⟨⟨e.2, hlast⟩, Nat.not_lt.1 hge⟩
  have hhit : ∀ p v, v = value m₀ s.shared.pubs a →
      match Resolve.hit port p v with
      | .inl r' => ResolveInv port m₀ s.shared.store a r'
      | .inr v => v = value m₀ s.shared.pubs a := by
    intro p v hv
    cases port
    · exact hv
    · exact hv
  cases r with
  | loadWm => exact rfl
  | lookup w =>
      obtain rfl : w = s.shared.gWm := hr
      exact hfound
  | lookupFirst => exact rfl
  | loadWmAfter p =>
      obtain rfl : p = s.shared.gIndex a := hr
      exact hfound
  | tag p =>
      unfold resolveStep
      dsimp only
      split
      · cases port
        · exact hr
        · exact hr
      · exact hstart
  | state p =>
      unfold resolveStep
      dsimp only
      split
      · exact hr
      · exact hstart
  | count p =>
      have hpoint : Pointed s.shared.store a p := hr
      obtain ⟨⟨v, hv⟩, hwm⟩ := hpoint
      obtain ⟨ws, hws, -⟩ := mem_of_latest hv
      obtain ⟨-, -, hholds⟩ := holds_of_pub h hws (.inl hwm)
      unfold resolveStep
      dsimp only
      rw [hholds.count]
      exact resolveInv_scan hr hws
  | addr p n i =>
      obtain ⟨hpoint, ws, hws, rfl, hi⟩ := hr
      obtain ⟨-, -, hholds⟩ := holds_of_pub h hws (.inl hpoint.2)
      unfold resolveStep
      dsimp only
      split
      · next haddr =>
          have hlt : i < ws.length := hi.trans_le (inlineLen_le port _)
          have hget : ws[i]? = some ws[i] := List.getElem?_eq_getElem hlt
          exact ⟨hpoint, ws, ws[i], hws, hi, hget, ((hholds.inline i hi _ hget).1).symm.trans haddr⟩
      · exact resolveInv_scan hpoint hws
  | val p i =>
      obtain ⟨hpoint, ws, w, hws, hi, hget, rfl⟩ := hr
      obtain ⟨-, -, hholds⟩ := holds_of_pub h hws (.inl hpoint.2)
      unfold resolveStep
      dsimp only
      rw [(hholds.inline i hi w hget).2]
      refine hhit p _ (value_of_entry hsorted hpoint hws ?_)
      exact lookup_of_mem (hst.nodup _ hws) (List.mem_of_getElem? hget)
  | overflow p =>
      obtain ⟨hpoint, ws, hws, hlong⟩ := hr
      obtain ⟨-, -, hholds⟩ := holds_of_pub h hws (.inl hpoint.2)
      unfold resolveStep
      dsimp only
      rw [hholds.overflow hlong, Option.getD_some]
      cases hlook : ws.lookup a with
      | none => exact hmissed
      | some v => exact hhit p v (value_of_entry hsorted hpoint hws hlook)
  | recheck p v =>
      unfold resolveStep
      dsimp only
      split
      · next heq =>
          split at heq
          · cases heq
          · obtain rfl := Sum.inl.inj heq
            exact hstart
      · next heq =>
          split at heq
          · obtain rfl := Sum.inr.inj heq
            exact hr
          · cases heq
  | mem => exact congrFun hmem a

end Resolve

section Buffering

variable {x x' : Tx}

theorem Buffering.idle (hops : x.ops = []) (hws : x.writeSet = []) (hrs : x.readSet = [])
    (hpc : x.pc.reading = none) : Buffering x := by
  refine ⟨?_, fun a ha => ?_⟩
  · rw [hops, hws, hrs]
    exact .nil
  · rw [hpc] at ha
    cases ha

theorem Buffering.goto (h : Buffering x) (hops : x'.ops = x.ops) (hws : x'.writeSet = x.writeSet)
    (hrs : x'.readSet = x.readSet) (hpc : x'.pc.reading = none ∨ x'.pc.reading = x.pc.reading) :
    Buffering x' := by
  refine ⟨?_, fun a ha => ?_⟩
  · rw [hops, hws, hrs]
    exact h.buffered
  · rw [hws]
    rcases hpc with hpc | hpc
    · rw [hpc] at ha
      cases ha
    · exact h.reading a (hpc ▸ ha)

theorem Buffering.readWord (h : Buffering x) (hpc : x.pc.reading = none) (a : CellAddr) :
    Buffering (x.readWord a) := by
  unfold Tx.readWord
  split
  · next v hv =>
      refine ⟨h.buffered.readOwn hv, fun b hb => ?_⟩
      have hb : x.pc.reading = some b := hb
      rw [hpc] at hb
      cases hb
  · next hv =>
      refine ⟨h.buffered, fun b hb => ?_⟩
      obtain rfl := Option.some.inj hb
      exact hv

theorem Buffering.observe (h : Buffering x) {a : CellAddr} (ha : x.pc.reading = some a) (v : Word) :
    Buffering (x.observe a v) :=
  ⟨h.buffered.read (h.reading a ha), fun _ hb => by cases hb⟩

theorem Buffering.writeWord (h : Buffering x) (hpc : x.pc.reading = none) (a : CellAddr)
    (v : Word) : Buffering (x.writeWord a v) := by
  refine ⟨h.buffered.write a v, fun b hb => ?_⟩
  have hb : x.pc.reading = some b := hb
  rw [hpc] at hb
  cases hb

theorem reading_of_phase (h : x.pc.phase ≠ .run) : x.pc.reading = none := by
  unfold Pc.reading
  split
  all_goals first
    | rfl
    | (next heq => exact absurd (by rw [heq]; rfl) h)

end Buffering

section Put

variable {T : Type} [DecidableEq T] {port : Port} {m₀ : CellAddr → Word}
  {s : Threads (Shared T) Tx T} {t : T} {σ : Shared T} {x : Tx}

omit [DecidableEq T] in
theorem work_of_holder (h : s.shared.holder = some t) : work s = s.tx t := by
  simp [work, h]

theorem work_put_self (h : σ.holder = some t) : work (s.put t σ x) = x := by
  rw [work_of_holder (t := t) h, Threads.put_tx_self]

theorem work_put_of_ne (hsame : σ.holder = s.shared.holder) (hne : s.shared.holder ≠ some t) :
    work (s.put t σ x) = work s := by
  unfold work
  rw [Threads.put_shared, hsame]
  cases hh : s.shared.holder with
  | none => rfl
  | some u =>
      have hu : u ≠ t := fun heq => hne (heq ▸ hh)
      exact Threads.put_tx_of_ne hu

variable (h : StoreInv port m₀ s)
include h

theorem buffering_put (hx : Buffering x) (u : T) : Buffering ((s.put t σ x).tx u) :=
  Threads.forall_put (P := fun _ y => Buffering y) hx (fun u _ => h.tx u) u

theorem store_outside (hstore : σ.store = s.shared.store) (hsame : σ.holder = s.shared.holder)
    (hne : s.shared.holder ≠ some t) (hx : Buffering x) : StoreInv port m₀ (s.put t σ x) := by
  refine ⟨?_, buffering_put h hx⟩
  rw [work_put_of_ne hsame hne, Threads.put_shared, hstore]
  exact h.stored

theorem store_holding (hholder : σ.holder = some t) (hst : Stored port m₀ σ.store x)
    (hx : Buffering x) : StoreInv port m₀ (s.put t σ x) := by
  refine ⟨?_, buffering_put h hx⟩
  rw [work_put_self hholder, Threads.put_shared]
  exact hst

theorem store_release (hholder : σ.holder = none) (hst : Stored port m₀ σ.store {})
    (hx : Buffering x) : StoreInv port m₀ (s.put t σ x) := by
  refine ⟨?_, buffering_put h hx⟩
  rw [work, Threads.put_shared, hholder]
  exact hst

end Put

end MVLog
