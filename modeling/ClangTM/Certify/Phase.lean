import ClangTM.Certify.System
import ClangTM.Serial.RedoLog

/-!
# Transactions with a read set and a write set

Most implementations of the certifying protocol have the same parts: a transaction
collects a read set and a write set, takes locks, takes its commit version when it holds
the locks of all it writes, checks its read set entry by entry, writes, and gives the locks
back. `Local` is what the protocol has to know of such a transaction and `Ok` that it
agrees with the state of the protocol. For every kind of step there is one lemma, which
says which moves the step makes and that `Ok` holds after them (`Advance`).

`Phased` makes a `Design` out of an implementation of this kind; what is left to its
authors is to say which step of the program is of which kind.
-/

namespace Certify

open Serial VersionLock Transition

/-- Where a transaction is: outside, in its body or taking locks, checking the rest of its
read set, committed with some words still to write, or giving up. -/
inductive Phase (A V : Type*)
  | idle
  | active
  | checking (rest : List (A × ℕ))
  | writing (rest : List (A × V))
  | failing

structure Local (A V L : Type*) where
  phase : Phase A V
  held : List L
  readSet : List (A × ℕ)
  writeSet : List (A × V)
  hist : VersionLock.Tx A V

variable {A V L T : Type*} [DecidableEq A]

namespace Local

/-- The words that a committed transaction has still to write. -/
def Pending (x : Local A V L) (a : A) : Prop := ∃ rest, x.phase = .writing rest ∧
  a ∈ rest.map Prod.fst

omit [DecidableEq A] in
theorem not_pending {x : Local A V L} (h : ∀ w rest, x.phase ≠ .writing (w :: rest)) (a : A) :
    ¬x.Pending a := by
  rintro ⟨rest, hp, ha⟩
  cases rest with
  | nil => cases ha
  | cons w rest => exact h w rest hp

structure Sets (x : Local A V L) : Prop where
  writes : ∀ a, lastWrite x.hist.trace a = x.writeSet.lookup a
  nodup : (x.writeSet.map Prod.fst).Nodup
  reads : ∀ r ∈ x.hist.reads, (r.addr, r.ver) ∈ x.readSet

def Here (lock : A → L) (m₀ : A → V) (v : State A V L T) (t : T) (x : Local A V L) : Prop :=
  match x.phase with
  | .idle => x.hist = {} ∧ x.held = []
  | .active => x.Sets ∧ x.hist.cv = none
  | .checking rest =>
      x.Sets ∧ x.hist.done = false ∧ (∀ w ∈ x.writeSet, lock w.1 ∈ x.held) ∧
        ∃ c, x.hist.cv = some c ∧ ∀ r ∈ x.hist.reads,
          (r.addr, r.ver) ∈ rest ∨ Kept lock m₀ v t r (c - 1)
  | .writing rest =>
      x.hist.done = true ∧ (rest.map Prod.fst).Nodup ∧
        ∀ w ∈ rest, lock w.1 ∈ x.held ∧ v.mem m₀ v.clock w.1 = w.2
  | .failing => x.hist.done = false

end Local

structure Ok (lock : A → L) (m₀ : A → V) (v : State A V L T) (t : T) (x : Local A V L) :
    Prop where
  held : ∀ ℓ, v.owner ℓ = some t ↔ ℓ ∈ x.held
  nodup : x.held.Nodup
  hist : v.tx t = x.hist
  here : x.Here lock m₀ v t

variable [DecidableEq L] [DecidableEq T]

structure Advance (lock : A → L) (m₀ : A → V) (v : State A V L T) (t : T)
    (b : Book A V L T) (y : Local A V L) : Prop where
  moves : Moves lock m₀ t v (v.put t b y.hist)
  ok : Ok lock m₀ (v.put t b y.hist) t y

namespace Ok

variable {lock : A → L} {m₀ : A → V} {v v' : State A V L T} {t u : T} {x : Local A V L}

theorem stable (h : Ok lock m₀ v t x) (hinv : Inv lock m₀ v) (hm : Moves lock m₀ u v v')
    (hne : t ≠ u) : Ok lock m₀ v' t x where
  held ℓ := (hm.owner_iff hne ℓ).trans (h.held ℓ)
  nodup := h.nodup
  hist := (hm.tx_of_ne hne).trans h.hist
  here := by
    have hhere := h.here
    unfold Local.Here at hhere ⊢
    cases hp : x.phase with
    | checking rest =>
        rw [hp] at hhere
        obtain ⟨hsets, hd, hcov, c, hcv, hreads⟩ := hhere
        have hclock := (hinv.cvLe t c (by rw [h.hist, hcv])).2
        refine ⟨hsets, hd, hcov, c, hcv, fun r hr => (hreads r hr).imp_right fun hk => ?_⟩
        exact hm.kept hinv hk hne (by omega)
    | writing rest =>
        rw [hp] at hhere
        refine ⟨hhere.1, hhere.2.1, fun w hw => ⟨(hhere.2.2 w hw).1, ?_⟩⟩
        rw [hm.mem_clock_eq hinv hne ((h.held _).2 (hhere.2.2 w hw).1)]
        exact (hhere.2.2 w hw).2
    | _ =>
        rw [hp] at hhere
        exact hhere

/-- The owners do not change, nor the history. -/
theorem same (h : Ok lock m₀ v t x) {y : Local A V L} (hheld : y.held = x.held)
    (hhist : y.hist = x.hist) (hhere : y.Here lock m₀ v t) :
    Advance lock m₀ v t v.toBook y := by
  have hput : v.put t v.toBook y.hist = v := by
    rw [hhist, ← h.hist, State.put_self]
  refine ⟨?_, ?_⟩
  · rw [hput]
    exact .refl _ _ _ _
  · rw [hput]
    exact ⟨fun ℓ => by rw [h.held, hheld], by rw [hheld]; exact h.nodup, by rw [hhist, h.hist],
      hhere⟩

/-- A single move that does not change the owners. -/
theorem move (h : Ok lock m₀ v t x) {b : Book A V L T} {y : Local A V L}
    (hs : Step lock m₀ v t (v.put t b y.hist)) (howner : b.owner = v.owner)
    (hheld : y.held = x.held) (hhere : y.Here lock m₀ (v.put t b y.hist) t) :
    Advance lock m₀ v t b y where
  moves := .single hs
  ok := ⟨fun ℓ => by rw [hheld, ← h.held]; exact iff_of_eq (congrArg (· ℓ = some t) howner),
    by rw [hheld]; exact h.nodup, State.put_tx_self _ _ _ _, hhere⟩

omit [DecidableEq L] [DecidableEq T] in
/-- What holds in a given phase. -/
theorem hereAt (h : Ok lock m₀ v t x) {p : Phase A V} (hp : x.phase = p) :
    Local.Here lock m₀ v t { x with phase := p } := by
  subst hp
  exact h.here

section

variable (h : Ok lock m₀ v t x)
include h

theorem begin (hp : x.phase = .idle) : Advance lock m₀ v t v.toBook ⟨.active, [], [], [], {}⟩ := by
  obtain ⟨hhist, hheld⟩ := h.hereAt hp
  refine h.same hheld.symm hhist.symm ⟨⟨?_, ?_, ?_⟩, rfl⟩ <;> simp

section

variable (hp : x.phase = .active)
include hp

/-- A write of `w` to `a`, which the write set receives. -/
theorem write (a : A) (w : V) (readSet : List (A × ℕ)) (writeSet : List (A × V))
    (hlookup : ∀ b, writeSet.lookup b = if b = a then some w else x.writeSet.lookup b)
    (hnodup : (writeSet.map Prod.fst).Nodup) (hsub : x.readSet ⊆ readSet) :
    Advance lock m₀ v t v.toBook
      { x with
        readSet := readSet
        writeSet := writeSet
        hist.trace := .write a w :: x.hist.trace } := by
  obtain ⟨hsets, hcv⟩ := h.hereAt hp
  refine h.move ?_ rfl rfl ?_
  · have hs : Step lock m₀ v t _ := .write a w (by rw [h.hist, hcv])
    rwa [h.hist] at hs
  · rw [Local.Here, hp]
    refine ⟨⟨fun b => ?_, hnodup, fun r hr => hsub (hsets.reads r hr)⟩, hcv⟩
    rw [lastWrite_write, hlookup, hsets.writes]

/-- A read of a word of the write set. -/
theorem readOwn {a : A} {w : V} (hw : x.writeSet.lookup a = some w) :
    Advance lock m₀ v t v.toBook { x with hist.trace := .read a w :: x.hist.trace } := by
  obtain ⟨hsets, hcv⟩ := h.hereAt hp
  refine h.move ?_ rfl rfl ?_
  · have hs : Step lock m₀ v t _ := .readOwn a w (by rw [h.hist, hcv])
      (by rw [h.hist, hsets.writes, hw])
    rwa [h.hist] at hs
  · rw [Local.Here, hp]
    exact ⟨⟨hsets.writes, hsets.nodup, hsets.reads⟩, hcv⟩

/-- A read of a word, noted in the read set. -/
theorem read {a : A} {n : ℕ} {w : V} (hw : x.writeSet.lookup a = none)
    (hseen : Seen lock m₀ v a n w) (readSet : List (A × ℕ)) (hsub : x.readSet ⊆ readSet)
    (hmem : (a, n) ∈ readSet) :
    Advance lock m₀ v t v.toBook
      { x with
        readSet := readSet
        hist.reads := ⟨a, n, w⟩ :: x.hist.reads
        hist.trace := .read a w :: x.hist.trace } := by
  obtain ⟨hsets, hcv⟩ := h.hereAt hp
  refine h.move ?_ rfl rfl ?_
  · have hs : Step lock m₀ v t _ := .read a n w (by rw [h.hist, hcv])
      (by rw [h.hist, hsets.writes, hw]) hseen
    rwa [h.hist] at hs
  · rw [Local.Here, hp]
    refine ⟨⟨hsets.writes, hsets.nodup, fun r hr => ?_⟩, hcv⟩
    rcases List.mem_cons.1 hr with rfl | hr
    · exact hmem
    · exact hsub (hsets.reads r hr)

/-- A lock is taken. -/
theorem acquire {ℓ : L} (hfree : v.owner ℓ = none) :
    Advance lock m₀ v t (v.acquire ℓ t) { x with held := x.held ++ [ℓ] } := by
  obtain ⟨hsets, hcv⟩ := h.hereAt hp
  have hnew : ℓ ∉ x.held := fun hℓ => by
    rw [← h.held, hfree] at hℓ
    cases hℓ
  refine ⟨?_, fun k => ?_, ?_, State.put_tx_self _ _ _ _, ?_⟩
  · have hs : Step lock m₀ v t _ := .acquire ℓ (by rw [h.hist, hcv])
      hfree
    rw [h.hist] at hs
    exact .single hs
  · show Function.update v.owner ℓ (some t) k = some t ↔ k ∈ x.held ++ [ℓ]
    by_cases hk : k = ℓ
    · simp [hk]
    · simp [hk, h.held]
  · exact List.nodup_append.2 ⟨h.nodup, by simp, fun a ha b hb => by
      rintro rfl
      exact hnew (List.mem_singleton.1 hb ▸ ha)⟩
  · rw [Local.Here, hp]
    exact ⟨⟨hsets.writes, hsets.nodup, hsets.reads⟩, hcv⟩

end

/-- The commit version is taken, all locks of the write set being held. -/
theorem tick (hinv : Inv lock m₀ v) (hp : x.phase = .active)
    (hcov : ∀ w ∈ x.writeSet, lock w.1 ∈ x.held) :
    Advance lock m₀ v t v.tick
      { x with phase := .checking x.readSet, hist.cv := some (v.clock + 1) } := by
  obtain ⟨hsets, hcv⟩ := h.hereAt hp
  refine h.move ?_ rfl rfl ?_
  · have hs : Step lock m₀ v t _ := .tick (by rw [h.hist, hcv])
    rwa [h.hist] at hs
  · exact ⟨⟨hsets.writes, hsets.nodup, hsets.reads⟩,
      (congrArg VersionLock.Tx.done h.hist).symm.trans (hinv.not_done (by rw [h.hist, hcv])), hcov,
      _, rfl, fun r hr => .inl (hsets.reads r hr)⟩

/-- The first entry of the rest of the read set has its version, and nobody else holds its
lock. -/
theorem check (hinv : Inv lock m₀ v) {e : A × ℕ} {rest : List (A × ℕ)}
    (hp : x.phase = .checking (e :: rest)) (hown : ∀ u, v.owner (lock e.1) = some u → u = t)
    (hver : v.ver (lock e.1) = e.2) :
    Advance lock m₀ v t v.toBook { x with phase := .checking rest } := by
  obtain ⟨hsets, hd, hcov, c, hcv, hreads⟩ := h.hereAt hp
  refine h.same rfl rfl ⟨⟨hsets.writes, hsets.nodup, hsets.reads⟩, hd, hcov, c, hcv,
    fun r hr => ?_⟩
  rcases hreads r hr with hmem | hkept
  · rcases List.mem_cons.1 hmem with rfl | hmem
    · refine .inr (hinv.kept_of_check ?_ ?_ ?_ hown hver)
      · rw [h.hist]
        exact hd
      · rw [h.hist]
        exact hcv
      · rw [h.hist]
        exact hr
    · exact .inl hmem
  · exact .inr hkept

/-- The transaction commits; `rest` is what it has not written yet. -/
theorem commit (hinv : Inv lock m₀ v) (hp : x.phase = .checking []) {rest : List (A × V)}
    (hrest : rest.Sublist x.writeSet) :
    Advance lock m₀ v t (v.commit (x.hist.cv.getD 0) x.hist.trace)
      { x with phase := .writing rest, hist.done := true } := by
  obtain ⟨hsets, hd, hcov, c, hcv, hreads⟩ := h.hereAt hp
  have hcv : x.hist.cv = some c := hcv
  have hcvTx : (v.tx t).cv = some c := by rw [h.hist, hcv]
  have hown : ∀ w ∈ x.writeSet, v.owner (lock w.1) = some t := fun w hw =>
    (h.held _).2 (hcov w hw)
  refine h.move ?_ rfl rfl ⟨rfl, hsets.nodup.sublist (hrest.map _), fun w hw =>
    ⟨hcov w (hrest.subset hw), ?_⟩⟩
  · rw [hcv, Option.getD_some]
    have hs : Step lock m₀ v t _ := .commit c hcvTx
      (by rw [h.hist]; exact hd)
      (by rw [h.hist]; exact fun r hr => (hreads r hr).resolve_left (by simp))
      (by
        rw [h.hist]
        exact fun a w hw => hown (a, w) (mem_of_lookup ((hsets.writes a).symm.trans hw)))
    rwa [h.hist] at hs
  · have hlast : lastWrite (v.tx t).trace w.1 = some w.2 := by
      rw [h.hist]
      exact (hsets.writes w.1).trans (lookup_of_mem hsets.nodup (hrest.subset hw))
    have hvalue := hinv.mem_commit_written hcvTx (hown w (hrest.subset hw)) hlast
    rw [h.hist] at hvalue
    rw [hcv]
    exact hvalue

end

omit [DecidableEq L] [DecidableEq T] in
/-- The committed memory after the commit. -/
theorem commit_mem (h : Ok lock m₀ v t x) (hinv : Inv lock m₀ v) (hp : x.phase = .checking [])
    (a : A) :
    memAt m₀ (enter v.log (x.hist.cv.getD 0) x.hist.trace) v.clock a =
      (x.writeSet.lookup a).getD (v.mem m₀ v.clock a) := by
  obtain ⟨hsets, hd, hcov, c, hcv, -⟩ := h.hereAt hp
  have hcv : x.hist.cv = some c := hcv
  have hcvTx : (v.tx t).cv = some c := by rw [h.hist, hcv]
  rw [hcv, Option.getD_some]
  cases hw : x.writeSet.lookup a with
  | none =>
      exact memAt_enter_of_unwritten _ (hinv.pending t c hcvTx (by rw [h.hist]; exact hd))
        ((hsets.writes a).trans hw)
  | some w =>
      have hown := (h.held _).2 (hcov (a, w) (mem_of_lookup hw))
      have hvalue := hinv.mem_commit_written hcvTx hown
        (by rw [h.hist]; exact (hsets.writes a).trans hw)
      rwa [h.hist] at hvalue

/-- The first of the words still to write has been written. -/
theorem store (h : Ok lock m₀ v t x) {w : A × V} {rest : List (A × V)}
    (hp : x.phase = .writing (w :: rest)) :
    Advance lock m₀ v t v.toBook { x with phase := .writing rest } := by
  obtain ⟨hd, hnodup, hrest⟩ := h.hereAt hp
  refine h.same rfl rfl ⟨hd, (List.nodup_cons.1 hnodup).2, fun w' hw' => ?_⟩
  exact hrest w' (List.mem_cons_of_mem _ hw')

omit [DecidableEq T] in
/-- The owners after the first lock has been given back. -/
theorem given_back (h : Ok lock m₀ v t x) {ℓ : L} {held : List L} (hheld : x.held = ℓ :: held)
    (k : L) : Function.update v.owner ℓ none k = some t ↔ k ∈ held := by
  have hnodup := h.nodup
  rw [hheld, List.nodup_cons] at hnodup
  by_cases hk : k = ℓ
  · subst hk
    simpa using hnodup.1
  · rw [Function.update_of_ne hk, h.held, hheld, List.mem_cons]
    simp [hk]

/-- A committed transaction gives a lock back with a larger version. -/
theorem release (h : Ok lock m₀ v t x) (hinv : Inv lock m₀ v) (hp : x.phase = .writing [])
    {ℓ : L} {held : List L} (hheld : x.held = ℓ :: held) {n : ℕ} (hn : v.ver ℓ < n) :
    Advance lock m₀ v t (v.release ℓ n (x.hist.cv.getD 0)) { x with held := held } := by
  obtain ⟨hd, -, -⟩ := h.hereAt hp
  have hd : x.hist.done = true := hd
  obtain ⟨c, hcv, -⟩ := hinv.committed t (by rw [h.hist, hd])
  have hcvx : x.hist.cv = some c := by rw [← h.hist, hcv]
  refine ⟨?_, h.given_back hheld, ?_, State.put_tx_self _ _ _ _, ?_⟩
  · have hs : Step lock m₀ v t _ := .release ℓ n c hcv
      (by rw [h.hist, hd]) ((h.held ℓ).2 (by simp [hheld])) hn
    rw [h.hist] at hs
    rw [hcvx]
    exact .single hs
  · have hnodup := h.nodup
    rw [hheld, List.nodup_cons] at hnodup
    exact hnodup.2
  · rw [Local.Here, hp]
    exact ⟨hd, .nil, by simp⟩

/-- A transaction that gives up gives a lock back. -/
theorem unlock (h : Ok lock m₀ v t x) (hp : x.phase = .failing) {ℓ : L} {held : List L}
    (hheld : x.held = ℓ :: held) {n : ℕ} (hn : v.ver ℓ ≤ n) :
    Advance lock m₀ v t (v.unlock ℓ n) { x with held := held } := by
  have hd : x.hist.done = false := h.hereAt hp
  refine ⟨?_, h.given_back hheld, ?_, State.put_tx_self _ _ _ _, ?_⟩
  · have hs : Step lock m₀ v t _ := .unlock ℓ n (by rw [h.hist, hd])
      ((h.held ℓ).2 (by simp [hheld])) hn
    rw [h.hist] at hs
    exact .single hs
  · have hnodup := h.nodup
    rw [hheld, List.nodup_cons] at hnodup
    exact hnodup.2
  · rw [Local.Here, hp]
    exact hd

omit [DecidableEq L] [DecidableEq T] in
/-- A transaction that has not committed is not `done`. -/
theorem not_done (h : Ok lock m₀ v t x) (hinv : Inv lock m₀ v)
    (hp : ∀ rest, x.phase ≠ .writing rest) : x.hist.done = false := by
  have hhere := h.here
  unfold Local.Here at hhere
  cases hphase : x.phase with
  | idle =>
      rw [hphase] at hhere
      rw [hhere.1]
  | active =>
      rw [hphase] at hhere
      rw [← h.hist]
      exact hinv.not_done (by rw [h.hist, hhere.2])
  | checking rest =>
      rw [hphase] at hhere
      exact hhere.2.1
  | writing rest => exact absurd hphase (hp rest)
  | failing =>
      rw [hphase] at hhere
      exact hhere

section

variable (h : Ok lock m₀ v t x)
include h

/-- The transaction has to give up. -/
theorem fail (hinv : Inv lock m₀ v) (hp : ∀ rest, x.phase ≠ .writing rest) (readSet : List (A × ℕ))
    (writeSet : List (A × V)) :
    Advance lock m₀ v t v.toBook ⟨.failing, x.held, readSet, writeSet, x.hist⟩ :=
  h.same rfl rfl (h.not_done hinv hp)

/-- A transaction that has not committed ends, holding nothing. -/
theorem abort (hinv : Inv lock m₀ v) (hp : ∀ rest, x.phase ≠ .writing rest) (hheld : x.held = [])
    (readSet : List (A × ℕ)) (writeSet : List (A × V)) :
    Advance lock m₀ v t v.toBook ⟨.idle, [], readSet, writeSet, {}⟩ :=
  h.move (.abort (by rw [h.hist]; exact h.not_done hinv hp)) rfl hheld.symm ⟨rfl, rfl⟩

/-- A committed transaction ends, holding nothing. -/
theorem finish (hp : x.phase = .writing []) (hheld : x.held = []) (readSet : List (A × ℕ))
    (writeSet : List (A × V)) :
    Advance lock m₀ v t v.toBook ⟨.idle, [], readSet, writeSet, {}⟩ := by
  obtain ⟨hd, -, -⟩ := h.hereAt hp
  refine h.move (.finish (by rw [h.hist]; exact hd) fun ℓ hℓ => ?_) rfl hheld.symm ⟨rfl, rfl⟩
  have hmem := (h.held ℓ).1 hℓ
  simp [hheld] at hmem

/-- A transaction without writes commits at `e`, where its reads are kept. -/
theorem commitReadOnly (hp : x.phase = .active) (hheld : x.held = []) (hnil : x.writeSet = [])
    {e : ℕ} (he : e ≤ v.clock) (hkept : ∀ r ∈ x.hist.reads, Kept lock m₀ v t r e)
    (readSet : List (A × ℕ)) (writeSet : List (A × V)) :
    Advance lock m₀ v t (v.commitReadOnly e x.hist.trace) ⟨.idle, [], readSet, writeSet, {}⟩ := by
  obtain ⟨hsets, hcv⟩ := h.hereAt hp
  refine h.move ?_ rfl hheld.symm ⟨rfl, rfl⟩
  have hs : Step lock m₀ v t _ := .commitReadOnly e
    (by rw [h.hist]; exact hcv) he
    (by
      rw [h.hist]
      exact fun a => (hsets.writes a).trans (by rw [hnil]; rfl))
    (by rw [h.hist]; exact hkept)
  rwa [h.hist] at hs

end

end Ok

/-- One after the other. -/
theorem Advance.trans {lock : A → L} {m₀ : A → V} {v : State A V L T} {t : T}
    {b b' : Book A V L T} {y z : Local A V L} (h : Advance lock m₀ v t b y)
    (h' : Advance lock m₀ (v.put t b y.hist) t b' z) : Advance lock m₀ v t b' z := by
  obtain ⟨hmoves, hok⟩ := h'
  rw [State.put_put] at hmoves hok
  exact ⟨Relation.ReflTransGen.trans h.moves hmoves, hok⟩

/-- The locks held may be listed in any order. -/
theorem Advance.reorder {lock : A → L} {m₀ : A → V} {v : State A V L T} {t : T}
    {b : Book A V L T} {y : Local A V L} (h : Advance lock m₀ v t b y) (held : List L)
    (hmem : ∀ ℓ, ℓ ∈ held ↔ ℓ ∈ y.held) (hnodup : held.Nodup) :
    Advance lock m₀ v t b { y with held := held } := by
  refine ⟨h.moves, fun ℓ => (h.ok.held ℓ).trans (hmem ℓ).symm, hnodup, h.ok.hist, ?_⟩
  have hhere := h.ok.here
  unfold Local.Here at hhere ⊢
  cases hp : y.phase with
  | idle =>
      rw [hp] at hhere
      refine ⟨hhere.1, List.eq_nil_iff_forall_not_mem.2 fun ℓ hℓ => ?_⟩
      rw [hmem, hhere.2] at hℓ
      exact List.not_mem_nil hℓ
  | active =>
      rw [hp] at hhere
      exact ⟨⟨hhere.1.writes, hhere.1.nodup, hhere.1.reads⟩, hhere.2⟩
  | checking rest =>
      rw [hp] at hhere
      obtain ⟨hsets, hd, hcov, hkept⟩ := hhere
      exact ⟨⟨hsets.writes, hsets.nodup, hsets.reads⟩, hd, fun w hw => (hmem _).2 (hcov w hw),
        hkept⟩
  | writing rest =>
      rw [hp] at hhere
      exact ⟨hhere.1, hhere.2.1, fun w hw => ⟨(hmem _).2 (hhere.2.2 w hw).1, (hhere.2.2 w hw).2⟩⟩
  | failing =>
      rw [hp] at hhere
      exact hhere

/-- An implementation with a read set and a write set: `loc` is its transaction as the
protocol sees it, `Extra` what else a thread knows. -/
structure Phased (A V L T S X : Type) [DecidableEq A] [DecidableEq L] [DecidableEq T] where
  lock : A → L
  book : S → Book A V L T
  mem : S → A → V
  loc : X → Local A V L
  Shape : S → Prop
  Extra : (A → V) → State A V L T → T → X → Prop
  stable : ∀ {m₀ : A → V} {v v' : State A V L T} {t u : T} {x : X}, Extra m₀ v t x →
    Ok lock m₀ v t (loc x) → Inv lock m₀ v → Moves lock m₀ u v v' → t ≠ u → Extra m₀ v' t x

namespace Phased

variable {A V L T S X : Type} [DecidableEq A] [DecidableEq L] [DecidableEq T]
  (P : Phased A V L T S X)

def design : Design A V L T S X where
  lock := P.lock
  book := P.book
  mem := P.mem
  hist x := (P.loc x).hist
  Shape := P.Shape
  Knows m₀ v t x := Ok P.lock m₀ v t (P.loc x) ∧ P.Extra m₀ v t x
  Pending x a := (P.loc x).Pending a
  stable h _ hinv hm hne := ⟨h.1.stable hinv hm hne, P.stable h.2 h.1 hinv hm hne⟩

variable {P} {m₀ : A → V} {s : Threads S X T} {t : T} {σ : S} {x : X}

def Good (P : Phased A V L T S X) (m₀ : A → V) (s : Threads S X T) (t : T) (σ : S) (x : X) :
    Prop :=
  P.design.Next m₀ s t σ x ((P.design.view s).put t (P.book σ) (P.loc x).hist)

theorem Good.inv (hg : P.Good m₀ s t σ x) (h : P.design.Inv m₀ s) :
    P.design.Inv m₀ (s.put t σ x) :=
  Design.Next.inv hg h

/-- A step that leaves memory and the committed memory as they are. -/
theorem good_of_advance (hnp : ∀ a, ¬(P.loc (s.tx t)).Pending a)
    (hadv : Advance P.lock m₀ (P.design.view s) t (P.book σ) (P.loc x)) (hshape : P.Shape σ)
    (hextra : P.Extra m₀ ((P.design.view s).put t (P.book σ) (P.loc x).hist) t x)
    (hmem : P.mem σ = P.mem s.shared)
    (hlog : ∀ a, memAt m₀ (P.book σ).log (P.book σ).clock a =
      (P.design.view s).mem m₀ (P.design.view s).clock a) : P.Good m₀ s t σ x :=
  ⟨hadv.moves, hshape, ⟨hadv.ok, hextra⟩, fun a => .inr (.inr ⟨hnp a, congrFun hmem a, hlog a⟩)⟩

section

variable (h : P.design.Inv m₀ s)
include h

/-- A step that changes nothing but its thread. -/
theorem good_local (hnp : ∀ a, ¬(P.loc (s.tx t)).Pending a)
    (hadv : Advance P.lock m₀ (P.design.view s) t (P.book s.shared) (P.loc x))
    (hextra : P.Extra m₀ ((P.design.view s).put t (P.book s.shared) (P.loc x).hist) t x) :
    P.Good m₀ s t s.shared x :=
  good_of_advance hnp hadv h.shape hextra rfl fun _ => rfl

/-- A step that the protocol does not see. -/
theorem good_same (hnp : ∀ a, ¬(P.loc (s.tx t)).Pending a) (hloc : P.loc x = P.loc (s.tx t))
    (hextra : P.Extra m₀ (P.design.view s) t x) : P.Good m₀ s t s.shared x := by
  have hview : (P.design.view s).put t (P.book s.shared) (P.loc x).hist = P.design.view s := by
    rw [hloc]
    exact Design.put_hist_self
  have hok := (h.tx t).1
  refine good_local h hnp (hok.same (by rw [hloc]) (by rw [hloc]) ?_) ?_
  · rw [hloc]
    exact hok.here
  · rwa [hview]

/-- The transaction commits, with all it writes still to write. -/
theorem good_commit {b : Book A V L T} {y : Local A V L}
    (hm : Moves P.lock m₀ t (P.design.view s) ((P.design.view s).put t b y.hist))
    (hok : Ok P.lock m₀ ((P.design.view s).put t b y.hist) t y) (hp : y.phase = .checking [])
    (hnp : ∀ a, ¬(P.loc (s.tx t)).Pending a)
    (hlog : ∀ a, memAt m₀ b.log b.clock a = (P.design.view s).mem m₀ (P.design.view s).clock a)
    (hbook : P.book σ = b.commit (y.hist.cv.getD 0) y.hist.trace)
    (hloc : P.loc x = { y with phase := .writing y.writeSet, hist.done := true })
    (hshape : P.Shape σ)
    (hextra : P.Extra m₀ ((P.design.view s).put t (P.book σ) (P.loc x).hist) t x)
    (hmem : P.mem σ = P.mem s.shared) : P.Good m₀ s t σ x := by
  have hinv := hm.inv h.proto
  have hadv := hok.commit hinv hp (List.Sublist.refl _)
  rw [State.put_toBook, ← hbook, ← hloc] at hadv
  refine ⟨?_, hshape, ⟨?_, hextra⟩, fun a => ?_⟩
  · have hmoves := hadv.moves
    rw [State.put_put] at hmoves
    exact Relation.ReflTransGen.trans hm hmoves
  · have hnew := hadv.ok
    rwa [State.put_put] at hnew
  · have hvalue := hok.commit_mem hinv hp a
    cases hw : y.writeSet.lookup a with
    | some w =>
        refine .inr (.inl ⟨y.writeSet, by rw [hloc], ?_⟩)
        exact List.mem_map_of_mem (mem_of_lookup hw)
    | none =>
        refine .inr (.inr ⟨hnp a, congrFun hmem a, ?_⟩)
        rw [hw, Option.getD_none] at hvalue
        rw [hbook]
        exact hvalue.trans (hlog a)

/-- A committed transaction stores one of its words. -/
theorem good_store {w : A × V} {rest : List (A × V)} {held : List L}
    (hp : (P.loc (s.tx t)).phase = .writing (w :: rest))
    (hheld : ∀ ℓ, ℓ ∈ held ↔ ℓ ∈ (P.loc (s.tx t)).held) (hnodupHeld : held.Nodup)
    (hbook : P.book σ = P.book s.shared)
    (hloc : P.loc x = { P.loc (s.tx t) with phase := .writing rest, held := held })
    (hshape : P.Shape σ)
    (hextra : P.Extra m₀ ((P.design.view s).put t (P.book σ) (P.loc x).hist) t x)
    (hmem : P.mem σ = Function.update (P.mem s.shared) w.1 w.2) : P.Good m₀ s t σ x := by
  have hok := (h.tx t).1
  have hadv := (hok.store hp).reorder held hheld hnodupHeld
  obtain ⟨-, hnodup, hrest⟩ := hok.hereAt hp
  rw [← hloc, Design.view_toBook] at hadv
  refine ⟨?_, hshape, ⟨?_, hextra⟩, fun a => ?_⟩
  · rw [hbook]
    exact hadv.moves
  · rw [hbook]
    exact hadv.ok
  · rw [hbook]
    by_cases ha : a = w.1
    · subst ha
      refine .inl ?_
      show P.mem σ w.1 = _
      rw [hmem, Function.update_self]
      exact (hrest w List.mem_cons_self).2.symm
    · by_cases hr : a ∈ rest.map Prod.fst
      · exact .inr (.inl ⟨rest, by rw [hloc], hr⟩)
      · refine .inr (.inr ⟨?_, ?_, rfl⟩)
        · rintro ⟨rest', hw, hmem'⟩
          rw [hp] at hw
          obtain rfl := Phase.writing.inj hw
          rcases List.mem_cons.1 hmem' with heq | hmem'
          · exact ha heq
          · exact hr hmem'
        · show P.mem σ a = _
          rw [hmem, Function.update_of_ne ha]
          rfl

/-- A word whose lock no committed transaction holds is current in memory. -/
theorem mem_of_settled {a : A} (hset : Settled (P.design.view s) (P.lock a)) :
    P.mem s.shared a = (P.design.view s).mem m₀ (P.design.view s).clock a := by
  rcases h.mem a with hmem | ⟨u, rest, hp, ha⟩
  · exact hmem
  · obtain ⟨hd, -, hrest⟩ := (h.tx u).1.hereAt hp
    obtain ⟨w, hw, rfl⟩ := List.mem_map.1 ha
    have hown := ((h.tx u).1.held _).2 (hrest w hw).1
    have hnot : (P.loc (s.tx u)).hist.done = false := hset u hown
    have hd : (P.loc (s.tx u)).hist.done = true := hd
    simp [hnot] at hd

end

end Phased

end Certify
