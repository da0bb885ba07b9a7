import ClangTM.Serial.RedoLog
import ClangTM.Simulator.TmModel.Opacity

/-!
# A transaction that runs alone

With all locks free and no version above the clock, every read and write of a transaction that
runs alone succeeds at once, and its commit finds every lock free that it does not hold itself.
But `tm_commit` takes a lock for every address, and does not notice that it holds the lock of an
address already: it then spins on its own lock until it gives up.
-/

namespace Simulator.TmModel

open Serial LockWord

inductive BodyCall
  | tmRead (addr : Word)
  | tmWrite (addr val : Word)

def finishAlone (s : TmModel) (t : Tid) : List BodyCall → Except TmError Unit × TmModel
  | [] => s.tmEnd t
  | .tmRead addr :: calls =>
      match s.tmRead t addr with
      | (.ok _, s') => finishAlone s' t calls
      | (.error e, s') => (.error e, s')
  | .tmWrite addr val :: calls =>
      match s.tmWrite t addr val with
      | (.ok _, s') => finishAlone s' t calls
      | (.error e, s') => (.error e, s')

def runAlone (s : TmModel) (t : Tid) (calls : List BodyCall) : Except TmError Unit × TmModel :=
  finishAlone (s.tmBegin t) t calls

/-- The addresses that a body writes, with the values, in its order. -/
def bodyWrites (calls : List BodyCall) : List (Word × Option Word) :=
  calls.filterMap fun
    | .tmRead _ => none
    | .tmWrite addr val => some (addr, some val)

/-- Different addresses that are written have different locks. -/
def OwnLocks (ws : List (Word × Option Word)) : Prop :=
  ∀ w ∈ ws, ∀ w' ∈ ws, addrToLockIdx w.1 = addrToLockIdx w'.1 → w.1 = w'.1

instance (ws : List (Word × Option Word)) : Decidable (OwnLocks ws) :=
  @List.decidableBAll _ _ (fun _ => List.decidableBAll _ _) ws

/-- An entry of the write set as an update of `committed_values`. -/
def WriteEntry.update (w : WriteEntry) : Word × Option Word := (w.addr, some w.newVal)

theorem map_update_write (addr val : Word) (ws : List WriteEntry) :
    (if ws.any fun w => w.addr == addr then updateEntry addr val ws
      else ws ++ [⟨addr, val⟩]).map WriteEntry.update =
      putBack addr (some val) (ws.map WriteEntry.update) := by
  have hoverwrite : (updateEntry addr val ws).map WriteEntry.update =
      overwrite addr (some val) (ws.map WriteEntry.update) := by
    induction ws with
    | nil => rfl
    | cons w ws ih =>
        by_cases hw : w.addr = addr
        · simp [updateEntry, overwrite, hw, WriteEntry.update]
        · simp [updateEntry, overwrite, hw, ih, WriteEntry.update]
  have hany : (ws.any fun w => w.addr == addr) =
      ((ws.map WriteEntry.update).lookup addr).isSome := by
    rw [Bool.eq_iff_iff, List.lookup_isSome_iff, List.any_eq_true]
    simp [WriteEntry.update, @eq_comm _ addr]
  rw [putBack, ← hany]
  split
  · exact hoverwrite
  · rw [List.map_append]
    rfl

theorem acquireAll_of_new {s₀ s : TmModel} {t : Tid} {held : List LockIdx} {addrs : List Word}
    (h : Taken t s₀ held s) (hfree : ∀ li, isLocked (s₀.locks li) = false)
    (hnodup : (addrs.map addrToLockIdx).Nodup) (hnew : ∀ a ∈ addrs, addrToLockIdx a ∉ held) :
    (acquireAll s t held addrs).2.2 = none := by
  induction addrs generalizing s held with
  | nil => rfl
  | cons addr addrs ih =>
      rw [List.map_cons, List.nodup_cons] at hnodup
      have hin := hnew addr List.mem_cons_self
      have hlock : isLocked (s.locks (addrToLockIdx addr)) = false := by
        rw [h.other _ hin]
        exact hfree _
      have hacquire : acquire s t (addrToLockIdx addr) (4999 + 1) = .ok { s with
          locks := Function.update s.locks (addrToLockIdx addr)
            (lockedBy (s.locks (addrToLockIdx addr)) (tidWord t)) } := by
        rw [acquire, tryLock, hlock]
        rfl
      rw [acquireAll, show spinIterations = 4999 + 1 from rfl, hacquire]
      refine ih (h.snoc hin) hnodup.2 fun a ha hmem => ?_
      rcases List.mem_append.1 hmem with hmem | hmem
      · exact hnew a (List.mem_cons_of_mem _ ha) hmem
      · exact hnodup.1 (List.mem_singleton.1 hmem ▸ List.mem_map_of_mem ha)

/-- In the body `x` of a transaction that runs alone, after the writes `ws`; the committed values
were `m` when it began. -/
structure Alone (m : Word → Option Word) (ws : List (Word × Option Word)) (s : TmModel)
    (x : TxState) : Prop where
  free : ∀ li, isLocked (s.locks li) = false
  ver : ∀ li, ¬x.endVersion < version (s.locks li)
  active : x.active = true
  reads : ∀ r ∈ x.readSet, ¬r.observedVersion < version (s.locks (addrToLockIdx r.addr))
  readOnly : x.readOnly = true → x.writeSet = []
  nodup : ((x.writeSet.map WriteEntry.update).map Prod.fst).Nodup
  addrs : ∀ a ∈ (x.writeSet.map WriteEntry.update).map Prod.fst, a ∈ ws.map Prod.fst
  values : writeAll s.committedValues (x.writeSet.map WriteEntry.update) = writeAll m ws

namespace Alone

variable {m : Word → Option Word} {s : TmModel} {t : Tid} {ws : List (Word × Option Word)}
  (h : Alone m ws s (s.txStates t))
include h

/-- What a transaction may add to its read set. -/
theorem reads_append (addr : Word) :
    ∀ r ∈ (s.txStates t).readSet ++ [⟨addr, version (s.locks (addrToLockIdx addr))⟩],
      ¬r.observedVersion < version (s.locks (addrToLockIdx r.addr)) := by
  intro r hr
  rcases List.mem_append.1 hr with hr | hr
  · exact h.reads r hr
  · obtain rfl := List.mem_singleton.1 hr
    exact Nat.lt_irrefl _

theorem tmRead (addr : Word) :
    ∃ v s', s.tmRead t addr = (.ok v, s') ∧ Alone m ws s' (s'.txStates t) := by
  unfold TmModel.tmRead
  rw [h.active]
  cases (s.txStates t).writeSet.find? fun w => w.addr == addr with
  | some w => exact ⟨w.newVal, s, rfl, h⟩
  | none =>
      refine ⟨_, _, readLoop_of_free (n := 4999) (h.free _) (h.ver _), ?_⟩
      rw [setTx_tx_self]
      exact { h with reads := h.reads_append addr }

theorem written {addr val : Word} {x : TxState} {s' : TmModel} (hlocks : s'.locks = s.locks)
    (hvalues : s'.committedValues = s.committedValues)
    (hend : x.endVersion = (s.txStates t).endVersion) (hactive : x.active = true)
    (hreads : ∀ r ∈ x.readSet, ¬r.observedVersion < version (s.locks (addrToLockIdx r.addr)))
    (hro : x.readOnly = false)
    (hws : x.writeSet.map WriteEntry.update =
      putBack addr (some val) ((s.txStates t).writeSet.map WriteEntry.update)) :
    Alone m (ws ++ [(addr, some val)]) s' x := by
  refine ⟨hlocks ▸ h.free, hlocks ▸ hend ▸ h.ver, hactive, hlocks ▸ hreads, by simp [hro], ?_, ?_,
    ?_⟩
  all_goals rw [hws]
  · exact nodup_putBack h.nodup
  · intro a ha
    rw [List.map_append, List.mem_append]
    rcases mem_map_fst_putBack.1 ha with rfl | ha
    · exact .inr List.mem_cons_self
    · exact .inl (h.addrs a ha)
  · rw [hvalues, writeAll_putBack _ h.nodup, h.values, writeAll, writeAll, List.foldl_append]
    rfl

theorem tmWrite (addr val : Word) :
    ∃ s', s.tmWrite t addr val = (.ok (), s') ∧
      Alone m (ws ++ [(addr, some val)]) s' (s'.txStates t) := by
  have hmap := map_update_write addr val (s.txStates t).writeSet
  unfold TmModel.tmWrite
  dsimp only
  rw [if_neg (by simp [h.active])]
  split
  · next hany =>
      rw [if_pos hany] at hmap
      refine ⟨_, rfl, h.written rfl rfl ?_ ?_ ?_ ?_ ?_⟩ <;> rw [setTx_tx_self]
      · exact h.active
      · exact h.reads
      · exact hmap
  · next hany =>
      rw [if_neg hany] at hmap
      have hx := setTx_tx_self s t { s.txStates t with readOnly := false }
      refine ⟨_, writeLoop_of_free (n := 4999) (h.free _) (by rw [hx]; exact h.ver _),
        h.written rfl rfl ?_ ?_ ?_ ?_ ?_⟩ <;> rw [setTx_tx_self, hx]
      · exact h.active
      · exact h.reads_append addr
      · exact hmap

theorem validateReadSet : s.validateReadSet t = true :=
  validateReadSet_iff.2 fun r hr =>
    ⟨fun hw => by simp [isWriteLocked_of_free (h.free _)] at hw, h.reads r hr⟩

theorem validate_taken {s₁ : TmModel} {held : List LockIdx} (htaken : Taken t s held s₁) :
    (s₁.bumpClock t held).validateReadSet t = true := by
  have htx : s₁.txStates = s.txStates := by rw [htaken.same]
  refine validateReadSet_iff.2 fun r hr => ?_
  rw [bumpClock, setTx_tx_self, htx] at hr
  refine ⟨fun hw => ?_, ?_⟩
  · by_cases hin : addrToLockIdx r.addr ∈ held
    · exact (congrArg owner (htaken.locked _ hin)).trans (owner_lockedBy _ _)
    · have hsame : (s₁.bumpClock t held).locks (addrToLockIdx r.addr) = _ := htaken.other _ hin
      rw [hsame, isWriteLocked_of_free (h.free _)] at hw
      cases hw
  · show ¬r.observedVersion < version (s₁.locks _)
    rw [htaken.version_eq]
    exact h.reads r hr

theorem tmEnd (hown : OwnLocks ws) :
    (s.tmEnd t).1 = .ok () ∧ (s.tmEnd t).2.committedValues = writeAll m ws := by
  rw [TmModel.tmEnd, if_pos h.validateReadSet, tmCommit, if_neg (by simp [h.active])]
  split
  · next hro =>
      refine ⟨rfl, ?_⟩
      rw [← h.values, h.readOnly hro]
      rfl
  · have hinj : ∀ a ∈ sortedAddrs (s.txStates t), ∀ b ∈ sortedAddrs (s.txStates t),
        addrToLockIdx a = addrToLockIdx b → a = b := by
      have hmem : ∀ a ∈ sortedAddrs (s.txStates t), ∃ w ∈ ws, w.1 = a := fun a ha => by
        obtain ⟨w, hw, rfl⟩ := mem_sortedAddrs.1 ha
        exact List.mem_map.1 (h.addrs _ (List.mem_map_of_mem (List.mem_map_of_mem hw)))
      intro a ha b hb heq
      obtain ⟨w, hw, rfl⟩ := hmem a ha
      obtain ⟨w', hw', rfl⟩ := hmem b hb
      exact hown w hw w' hw' heq
    have hnone := acquireAll_of_new (.init t s) h.free
      ((List.nodup_dedup _).map_on hinj) fun _ _ => List.not_mem_nil
    obtain ⟨htaken, -⟩ := acquireAll_taken (.init t s) (sortedAddrs (s.txStates t))
    generalize acquireAll s t [] (sortedAddrs (s.txStates t)) = p at hnone htaken ⊢
    obtain ⟨s₁, held, reason⟩ := p
    obtain rfl : reason = none := hnone
    have hsame : s₁ = { s with locks := s₁.locks } := htaken.same
    show (s₁.commitHeld t held).1 = _ ∧ (s₁.commitHeld t held).2.committedValues = _
    rw [commitHeld, if_pos (h.validate_taken htaken)]
    refine ⟨rfl, ?_⟩
    rw [← h.values, writeAll, List.foldl_map]
    show (s₁.bumpClock t held |>.txStates t).writeSet.foldl _ s₁.committedValues = _
    rw [bumpClock, setTx_tx_self, hsame]
    rfl

end Alone

theorem finishAlone_of_alone {m : Word → Option Word} {s : TmModel} {t : Tid}
    {ws : List (Word × Option Word)} (h : Alone m ws s (s.txStates t)) (calls : List BodyCall)
    (hown : OwnLocks (ws ++ bodyWrites calls)) :
    (finishAlone s t calls).1 = .ok () ∧
      (finishAlone s t calls).2.committedValues = writeAll m (ws ++ bodyWrites calls) := by
  induction calls generalizing s ws with
  | nil =>
      rw [bodyWrites, List.filterMap_nil, List.append_nil] at hown ⊢
      exact h.tmEnd hown
  | cons c calls ih =>
      cases c with
      | tmRead addr =>
          obtain ⟨v, s', hread, h'⟩ := h.tmRead addr
          rw [finishAlone, hread]
          exact ih h' hown
      | tmWrite addr val =>
          obtain ⟨s', hwrite, h'⟩ := h.tmWrite addr val
          have hsplit : ws ++ bodyWrites (.tmWrite addr val :: calls) =
              ws ++ [(addr, some val)] ++ bodyWrites calls := by
            simp [bodyWrites]
          rw [hsplit] at hown ⊢
          rw [finishAlone, hwrite]
          exact ih h' hown

end Simulator.TmModel
