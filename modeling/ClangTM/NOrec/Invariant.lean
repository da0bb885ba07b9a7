import ClangTM.NOrec.Basic
import ClangTM.SeqLock.Protocol
import ClangTM.Serial.Buffered

/-!
# The invariant of NOrec

While `global_lock` holds the even value `2 * n`, memory is what the first `n`
writers left, `memAt m₀ log n`; while it is odd, one thread is writing back and
memory becomes that once it is done. All that a transaction knows is in terms of
these memories and of the lock: its read set is part of `memAt` at half its
snapshot, and a value loaded in the middle of a function is part of `memAt` at a
clock value if the lock still has that value. Nothing of this mentions the
current memory, so the moves of the others can only affect it by moving the lock
(`TxInv.later`).

The invariant holds in runs with fewer than `2 ^ 63` writers, in which the lock
does not wrap, and in which no write goes to an address that
`write_word_norec` skips.
-/

namespace NOrec

open Serial Transition

theorem isOdd_iff (c : Word) : isOdd c = true ↔ c.toNat % 2 = 1 := SeqLock.odd_iff c

def WritesLow : TxCall → Prop
  | .write a _ => a.val < 2 ^ 47
  | _ => True

instance : DecidablePred WritesLow
  | .write a _ => inferInstanceAs (Decidable (a.val < 2 ^ 47))
  | .begin | .read _ | .commit | .abort | .tau => inferInstanceAs (Decidable True)

namespace Pc

def inside : Pc → Bool
  | .out | .beginClock => false
  | _ => true

def pending : Pc → Option (List (WordAddr × Word))
  | .writeBack rest => some rest
  | _ => none

end Pc

structure Recorded (x : Tx) : Prop where
  sets : Buffered x.ops x.writeSet (x.readSet.map fun r => (r.addr, r.observedVal))
  readOnly : x.readOnly = true → x.writeSet = []

/-- The clock value `c` is even, has been reached, and the entries of the list
are part of the memory at `c`. -/
structure TakenAt (L : ℕ) (M : ℕ → WordAddr → Word) (c : Word) (rs : List ReadLogEntry) :
    Prop where
  even : c.toNat % 2 = 0
  le : c.toNat ≤ L
  reads : ∀ r ∈ rs, M (c.toNat / 2) r.addr = r.observedVal

def Caller.Fresh (x : Tx) : Caller → Prop
  | .readWord a => x.writeSet.lookup a = none
  | .commit => x.readOnly = false

/-- What a thread knows in the middle of a function: `L` is the value of the
lock, `M` gives the memory at every clock value. -/
def PcInv (L : ℕ) (M : ℕ → WordAddr → Word) (x : Tx) : Prop :=
  match x.pc with
  | .readClock a | .readAgain a => x.writeSet.lookup a = none
  | .readValue a clockBefore =>
      x.writeSet.lookup a = none ∧ clockBefore.toNat % 2 = 0 ∧ clockBefore.toNat ≤ L
  | .readClockAfter a clockBefore value =>
      x.writeSet.lookup a = none ∧ clockBefore.toNat ≤ L ∧
        (L = clockBefore.toNat → M (clockBefore.toNat / 2) a = value)
  | .readCheck a value =>
      x.writeSet.lookup a = none ∧
        (L = x.snapshot.toNat → M (x.snapshot.toNat / 2) a = value)
  | .validateClock k => k.Fresh x
  | .validateEntries k time rest =>
      k.Fresh x ∧ time.toNat % 2 = 0 ∧ time.toNat ≤ L ∧
        ∀ r ∈ x.readSet, r ∈ rest ∨
          (L = time.toNat → M (time.toNat / 2) r.addr = r.observedVal)
  | .commitCas => x.readOnly = false
  | _ => True

structure TxInv (L : ℕ) (M : ℕ → WordAddr → Word) (x : Tx) : Prop where
  outside : x.pc.inside = false → x.readSet = []
  taken : x.pc.inside = true → TakenAt L M x.snapshot x.readSet
  recorded : x.pc.inside = true → Recorded x
  here : PcInv L M x

section Later

variable {L L' : ℕ} {M M' : ℕ → WordAddr → Word} {x : Tx}

/-- What a thread knows is not affected by what the others do: the lock moves
on, and the memories at the clock values it has passed are settled. -/
theorem TxInv.later (h : TxInv L M x) (hL : L ≤ L') (hM : ∀ n, 2 * n ≤ L → M' n = M n) :
    TxInv L' M' x where
  outside := h.outside
  taken := by
    intro hx
    obtain ⟨heven, hle, hreads⟩ := h.taken hx
    refine ⟨heven, hle.trans hL, fun r hr => ?_⟩
    rw [hM _ (by omega), hreads r hr]
  recorded := h.recorded
  here := by
    have hhere := h.here
    have htaken := h.taken
    unfold PcInv at hhere ⊢
    cases hpc : x.pc with
    | readValue a c =>
        rw [hpc] at hhere
        exact ⟨hhere.1, hhere.2.1, hhere.2.2.trans hL⟩
    | readClockAfter a c v =>
        rw [hpc] at hhere
        obtain ⟨hfresh, hle, hval⟩ := hhere
        refine ⟨hfresh, hle.trans hL, fun he => ?_⟩
        rw [hM _ (by omega)]
        exact hval (by omega)
    | readCheck a v =>
        rw [hpc] at hhere htaken
        have hle := (htaken rfl).le
        refine ⟨hhere.1, fun he => ?_⟩
        rw [hM _ (by omega)]
        exact hhere.2 (by omega)
    | validateEntries k c rest =>
        rw [hpc] at hhere
        obtain ⟨hfresh, heven, hle, hval⟩ := hhere
        refine ⟨hfresh, heven, hle.trans hL, fun r hr => (hval r hr).imp_right ?_⟩
        intro hr' he
        rw [hM _ (by omega)]
        exact hr' (by omega)
    | _ =>
        rw [hpc] at hhere
        exact hhere

theorem TxInv.idle (hpc : x.pc = .out) (hx : x.readSet = []) : TxInv L M x where
  outside _ := hx
  taken h := by simp [hpc, Pc.inside] at h
  recorded h := by simp [hpc, Pc.inside] at h
  here := by simp [PcInv, hpc]

theorem TxInv.abortTx (x : Tx) : TxInv L M x.abortTx := .idle rfl rfl

end Later

section Look

variable {L : ℕ} {M : ℕ → WordAddr → Word} {x x' : Tx} {clock : Word}
  {mem : WordAddr → Word}

theorem TxInv.begin (hL : clock.toNat = L) (h : TxInv L M x) (hpc : x.pc = .beginClock) :
    TxInv L M (x.begin clock) := by
  unfold Tx.begin
  split
  · exact ⟨fun _ => h.outside (by simp [hpc, Pc.inside]), by simp [hpc, Pc.inside],
      by simp [hpc, Pc.inside], by simp [PcInv, hpc]⟩
  · next hodd =>
      rw [isOdd_iff] at hodd
      refine ⟨by simp [Pc.inside], fun _ => ⟨by simp only; omega, by simp [hL], by simp⟩,
        fun _ => ⟨.nil, fun _ => rfl⟩, trivial⟩

section

variable (h : TxInv L M x)
include h

variable {a : WordAddr} {k : Caller} {time : Word}

theorem TxInv.validated {pc : Pc} (hpc : x.pc = pc) (hin : pc.inside = true) (hk : k.Fresh x)
    (htaken : TakenAt L M time x.readSet) : TxInv L M (x.validated k time) := by
  subst hpc
  have hrec := h.recorded hin
  cases k with
  | readWord a =>
      exact ⟨by simp [Tx.validated, Pc.inside], fun _ => htaken,
        fun _ => ⟨hrec.sets, hrec.readOnly⟩, hk⟩
  | commit =>
      exact ⟨by simp [Tx.validated, Pc.inside], fun _ => htaken,
        fun _ => ⟨hrec.sets, hrec.readOnly⟩, hk⟩

theorem TxInv.goto {pc q : Pc} (hpc : x.pc = pc) (hin : pc.inside = true)
    (hin' : q.inside = true) (hhere : PcInv L M { x with pc := q }) :
    TxInv L M { x with pc := q } := by
  subst hpc
  have hrec := h.recorded hin
  exact ⟨fun hf => by simp [hin'] at hf, fun _ => h.taken hin,
    fun _ => ⟨hrec.sets, hrec.readOnly⟩, hhere⟩

theorem TxInv.at {pc : Pc} (hpc : x.pc = pc) : PcInv L M { x with pc := pc } := by
  subst hpc
  exact h.here

theorem TxInv.readWordNorec (hpc : x.pc = .body) (a : WordAddr) :
    TxInv L M (x.readWordNorec a) := by
  have hin : x.pc.inside = true := by simp [hpc, Pc.inside]
  have hrec := h.recorded hin
  unfold Tx.readWordNorec
  cases hw : x.writeSet.lookup a with
  | none => exact h.goto hpc rfl rfl hw
  | some v =>
      exact ⟨by simp [hin], fun _ => h.taken hin,
        fun _ => ⟨hrec.sets.readOwn hw, hrec.readOnly⟩, by simp [PcInv, hpc]⟩

theorem TxInv.writeWordNorec (hpc : x.pc = .body) (v : Word) (ha : a.val < 2 ^ 47) :
    TxInv L M (x.writeWordNorec a v) := by
  have hin : x.pc.inside = true := by simp [hpc, Pc.inside]
  have hhigh : ¬ a.val >>> 47 ≠ 0 := by
    rw [Nat.shiftRight_eq_div_pow, Nat.div_eq_of_lt ha]
    simp
  rw [Tx.writeWordNorec, if_neg hhigh]
  exact ⟨by simp [hin], fun _ => h.taken hin,
    fun _ => ⟨(h.recorded hin).sets.writeFront a v, by simp⟩, by simp [PcInv, hpc]⟩

theorem TxInv.readClock (hpc : x.pc = .readClock a) (hL : clock.toNat = L) :
    TxInv L M { x with pc := if isOdd clock then .readClock a else .readValue a clock } := by
  split
  · exact h.goto hpc rfl rfl (h.at hpc)
  · next hodd =>
      rw [isOdd_iff] at hodd
      exact h.goto hpc rfl rfl ⟨h.at hpc, by omega, hL.le⟩

/-- The word is loaded from the memory at `clock_before`, if the lock still has
that value. -/
theorem TxInv.readValue {clockBefore : Word} (hpc : x.pc = .readValue a clockBefore)
    (hmem : L % 2 = 0 → mem = M (L / 2)) :
    TxInv L M { x with pc := .readClockAfter a clockBefore (mem a) } := by
  obtain ⟨hfresh, heven, hle⟩ := h.at hpc
  refine h.goto hpc rfl rfl ⟨hfresh, hle, fun he => ?_⟩
  rw [hmem (by omega), he]

theorem TxInv.readClockAfter {clockBefore value : Word}
    (hpc : x.pc = .readClockAfter a clockBefore value) (hL : clock.toNat = L) :
    TxInv L M
      { x with pc := if clock = clockBefore then .readCheck a value else .readClock a } := by
  obtain ⟨hfresh, -, hval⟩ := h.at hpc
  split
  · next heq =>
      subst heq
      refine h.goto hpc rfl rfl ⟨hfresh, fun he => ?_⟩
      have hsnap : x.snapshot.toNat = clock.toNat := he.symm.trans hL.symm
      simp only [hsnap]
      exact hval hL.symm
  · exact h.goto hpc rfl rfl hfresh

/-- A value enters the read set when the lock still has the value `snapshot`. -/
theorem TxInv.pushRead {value : Word} (hpc : x.pc = .readCheck a value)
    (hL : x.snapshot.toNat = L) : TxInv L M (x.pushRead a value) := by
  have hin : x.pc.inside = true := by simp [hpc, Pc.inside]
  obtain ⟨hfresh, hval⟩ := h.at hpc
  obtain ⟨heven, hle, hreads⟩ := h.taken hin
  have hrec := h.recorded hin
  refine ⟨by simp [Tx.pushRead, Pc.inside], fun _ => ⟨heven, hle, ?_⟩,
    fun _ => ⟨hrec.sets.readFront hfresh, hrec.readOnly⟩, trivial⟩
  intro r hr
  rcases List.mem_cons.1 hr with rfl | hr
  · exact hval hL.symm
  · exact hreads r hr

theorem TxInv.readAgain (hpc : x.pc = .readAgain a) (hmem : L % 2 = 0 → mem = M (L / 2)) :
    TxInv L M { x with pc := .readCheck a (mem a) } := by
  have heven := (h.taken (by simp [hpc, Pc.inside])).even
  refine h.goto hpc rfl rfl ⟨h.at hpc, fun he => ?_⟩
  replace he : L = x.snapshot.toNat := he
  rw [hmem (by omega), he]

theorem TxInv.validateTime (hpc : x.pc = .validateClock k) (hL : clock.toNat = L) :
    TxInv L M (x.validateTime k clock) := by
  have hfresh : k.Fresh x := by
    have := h.here
    rwa [PcInv, hpc] at this
  unfold Tx.validateTime
  split
  · exact h.goto hpc rfl rfl (h.at hpc)
  · next hodd =>
      rw [isOdd_iff] at hodd
      split
      · next hempty => exact h.validated hpc rfl hfresh ⟨by omega, hL.le, by simp [hempty]⟩
      · exact h.goto hpc rfl rfl
          ⟨h.at hpc, by omega, hL.le, fun r hr => .inl (by simpa using hr)⟩

theorem TxInv.validateEntry {r : ReadLogEntry} {rest : List ReadLogEntry}
    (hpc : x.pc = .validateEntries k time (r :: rest)) (hmem : L % 2 = 0 → mem = M (L / 2))
    (heq : mem r.addr = r.observedVal) :
    TxInv L M { x with pc := .validateEntries k time rest } := by
  obtain ⟨hfresh, heven, hle, hval⟩ := h.at hpc
  refine h.goto hpc rfl rfl ⟨hfresh, heven, hle, fun r' hr' => ?_⟩
  rcases hval r' hr' with hmem' | hold
  · rcases List.mem_cons.1 hmem' with rfl | hrest
    · refine .inr fun he => ?_
      rw [← heq, hmem (by omega), he]
    · exact .inl hrest
  · exact .inr hold

theorem TxInv.validateEnd (hpc : x.pc = .validateEntries k time []) (hL : time.toNat = L) :
    TxInv L M (x.validated k time) := by
  have hhere := h.here
  rw [PcInv, hpc] at hhere
  obtain ⟨hfresh, heven, hle, hval⟩ := hhere
  refine h.validated hpc rfl hfresh ⟨heven, hle, fun r hr => ?_⟩
  exact (hval r hr).resolve_left (by simp) hL.symm

theorem TxInv.look {c : TxCall} (hL : clock.toNat = L) (hmem : L % 2 = 0 → mem = M (L / 2))
    (hc : WritesLow c) (hs : x.look clock mem c = some x') : TxInv L M x' := by
  unfold Tx.look at hs
  split at hs <;> try cases hs
  · next hpc =>
      exact ⟨fun _ => h.outside (by simp [hpc, Pc.inside]), by simp [Pc.inside],
        by simp [Pc.inside], trivial⟩
  · next hpc => exact h.begin hL hpc
  · next a hpc => exact h.readWordNorec hpc a
  · next a v hpc => exact h.writeWordNorec hpc v hc
  · exact .abortTx x
  · next a hpc => exact h.readClock hpc hL
  · next a clockBefore hpc => exact h.readValue hpc hmem
  · next a clockBefore value hpc => exact h.readClockAfter hpc hL
  · next a value hpc =>
      split at hs <;> cases hs
      · next heq => exact h.pushRead hpc (heq ▸ hL)
      · exact h.goto (q := .validateClock (.readWord a)) hpc rfl rfl (h.at hpc).1
  · next a hpc =>
      split at hs <;> cases hs
      · exact .abortTx x
      · exact h.readAgain hpc hmem
  · next k hpc => exact h.validateTime hpc hL
  · next k time r rest hpc =>
      split at hs <;> cases hs
      · next heq => exact h.validateEntry hpc hmem heq
      · exact .abortTx x
  · next k time hpc =>
      split at hs <;> cases hs
      · next heq => exact h.validateEnd hpc (heq ▸ hL)
      · exact h.goto (q := .validateClock k) hpc rfl rfl (h.at hpc).1

end

@[simp] theorem Tx.validated_pending (x : Tx) (k : Caller) (time : Word) :
    (x.validated k time).pc.pending = none := by
  cases k <;> rfl

/-- These moves are not made by a thread that holds the lock, and do not take it. -/
theorem Tx.look_pending {c : TxCall} (hs : x.look clock mem c = some x') :
    x.pc.pending = none ∧ x'.pc.pending = none := by
  unfold Tx.look at hs
  split at hs <;>
    grind [Pc.pending, Tx.begin, Tx.readWordNorec, Tx.writeWordNorec, Tx.abortTx,
      Tx.pushRead, Tx.validateTime, Tx.validated_pending]

end Look

inductive Move (s : State) (t : ℕ) (c : TxCall) : State → Prop
  | look (x : Tx) (hs : (s.tx t).look s.globalLock s.mem c = some x) :
      Move s t c (s.setTx t x)
  | commitReadOnly (hpc : (s.tx t).pc = .body) (hro : (s.tx t).readOnly = true) :
      Move s t c (s.commitReadOnly t)
  | commitStart (hpc : (s.tx t).pc = .body) (hro : (s.tx t).readOnly = false) :
      Move s t c (s.setTx t { s.tx t with pc := .commitCas })
  | acquire (hpc : (s.tx t).pc = .commitCas) (hlock : s.globalLock = (s.tx t).snapshot) :
      Move s t c (s.acquire t)
  | busy (hpc : (s.tx t).pc = .commitCas) :
      Move s t c (s.setTx t { s.tx t with pc := .validateClock .commit })
  | writeBack (w : WordAddr × Word) (rest : List (WordAddr × Word))
      (hpc : (s.tx t).pc = .writeBack (w :: rest)) : Move s t c (s.writeBack t w rest)
  | release (hpc : (s.tx t).pc = .writeBack []) : Move s t c (s.release t)

theorem stepOf_move {s s' : State} {t : ℕ} {c : TxCall} (hs : stepOf s t c = some s') :
    Move s t c s' := by
  unfold stepOf at hs
  split at hs <;> try cases hs
  · next hpc =>
      split at hs <;> cases hs
      · next hro => exact .commitReadOnly hpc hro
      · next hro => exact .commitStart hpc (by simpa using hro)
  · next hpc =>
      split at hs <;> cases hs
      · next hlock => exact .acquire hpc hlock
      · exact .busy hpc
  · next w rest hpc => exact .writeBack w rest hpc
  · next hpc => exact .release hpc
  · obtain ⟨x, hx, rfl⟩ := Option.map_eq_some_iff.1 hs
    exact .look x hx

def State.view (s : State) : SeqLock.State WordAddr Word ℕ where
  clock := s.globalLock.toNat
  mem := s.mem
  writers := s.writers
  log := s.log
  ro := s.ro
  writing t := (s.tx t).pc.pending

def State.memAt (m₀ : WordAddr → Word) (s : State) : ℕ → WordAddr → Word := s.view.memAt m₀

structure Inv (m₀ : WordAddr → Word) (s : State) : Prop where
  lock : SeqLock.Inv m₀ s.view
  tx : ∀ t, TxInv s.globalLock.toNat (s.memAt m₀) (s.tx t)
  owner : ∀ t rest, (s.tx t).pc = .writeBack rest →
    (s.tx t).snapshot.toNat + 2 = 2 * s.writers

section Step

variable {m₀ : WordAddr → Word} {s s' : State} {t : ℕ} {c : TxCall} {x : Tx}

theorem view_writing (htx : s'.tx = Function.update s.tx t x) :
    s'.view.writing = Function.update s.view.writing t x.pc.pending := by
  funext u
  by_cases hu : u = t
  · subst hu
    simp [State.view, htx]
  · simp [State.view, htx, hu]

theorem view_eq (htx : s'.tx = Function.update s.tx t x) {w : Option (List (WordAddr × Word))}
    (hw : x.pc.pending = w) :
    s'.view = { s'.view with writing := Function.update s.view.writing t w } := by
  rw [← hw, ← view_writing htx]

namespace Inv

theorem init (m₀ : WordAddr → Word) : Inv m₀ (NOrec.init m₀) where
  lock := .init rfl rfl rfl rfl fun _ => rfl
  tx _ := .idle rfl rfl
  owner t rest hpc := by simp [NOrec.init] at hpc

section

variable (h : Inv m₀ s)
include h

theorem legal_snapshot (hin : (s.tx t).pc.inside = true) :
    Legal (s.memAt m₀ ((s.tx t).snapshot.toNat / 2)) (s.tx t).ops :=
  ((h.tx t).recorded hin).sets.legal
    (List.forall_mem_map.2 ((h.tx t).taken hin).reads)

/-- The invariant after a step of `t`, from the state of the lock and what `t` knows. -/
theorem put (htx : s'.tx = Function.update s.tx t x)
    (hlock : SeqLock.Inv m₀ s'.view ∧ SeqLock.Later m₀ s.view s'.view)
    (hx : TxInv s'.globalLock.toNat (s'.memAt m₀) x)
    (hself : ∀ rest, x.pc = .writeBack rest → x.snapshot.toNat + 2 = 2 * s'.writers)
    (hother : ∀ u, (s.tx u).pc.pending ≠ none → s'.writers = s.writers) :
    Inv m₀ s' ∧ SeqLock.Later m₀ s.view s'.view := by
  refine ⟨⟨hlock.1, fun u => ?_, fun u rest hpc => ?_⟩, hlock.2⟩
  · rw [htx]
    by_cases hu : u = t
    · subst hu
      rwa [Function.update_self]
    · rw [Function.update_of_ne hu]
      exact (h.tx u).later hlock.2.clock hlock.2.mem
  · rw [htx] at hpc ⊢
    by_cases hu : u = t
    · subst hu
      rw [Function.update_self] at hpc ⊢
      exact hself rest hpc
    · rw [Function.update_of_ne hu] at hpc ⊢
      rw [hother u (by simp [hpc, Pc.pending])]
      exact h.owner u rest hpc

theorem setTx (hx : TxInv s.globalLock.toNat (s.memAt m₀) x) (hold : (s.tx t).pc.pending = none)
    (hnew : x.pc.pending = none) :
    Inv m₀ (s.setTx t x) ∧ SeqLock.Later m₀ s.view (s.setTx t x).view := by
  have hview : (s.setTx t x).view = s.view := by
    rw [view_eq (t := t) rfl hnew, ← hold]
    exact congrArg (fun w => { s.view with writing := w })
      (Function.update_eq_self t s.view.writing)
  refine h.put rfl ?_ hx (fun rest hpc => ?_) fun _ _ => rfl
  · rw [hview]
    exact ⟨h.lock, .of_eq rfl rfl⟩
  · rw [hpc] at hnew
    cases hnew

theorem commitReadOnly (hpc : (s.tx t).pc = .body) (hro : (s.tx t).readOnly = true) :
    Inv m₀ (s.commitReadOnly t) ∧ SeqLock.Later m₀ s.view (s.commitReadOnly t).view := by
  have hin : (s.tx t).pc.inside = true := by simp [hpc, Pc.inside]
  have hrec := (h.tx t).recorded hin
  have hold : s.view.writing t = none := congrArg Pc.pending hpc
  have hview : (s.commitReadOnly t).view =
      { s.view with ro := ((s.tx t).snapshot.toNat / 2, (s.tx t).ops) :: s.ro } := by
    rw [view_eq (t := t) (w := none) rfl rfl, ← hold, Function.update_eq_self]
    rfl
  refine h.put rfl ?_ (.idle rfl rfl) (fun rest hpc' => by cases hpc') fun _ _ => rfl
  rw [hview]
  refine h.lock.step (t := t) (.commitReadOnly _ _ ?_ (h.legal_snapshot hin) fun a => ?_)
  · exact (Nat.mul_div_le _ 2).trans ((h.tx t).taken hin).le
  · rw [hrec.sets.writes, hrec.readOnly hro]
    rfl

theorem free_of_snapshot (hin : (s.tx t).pc.inside = true)
    (hlock : s.globalLock = (s.tx t).snapshot) : SeqLock.Free m₀ s.view := by
  have heven := ((h.tx t).taken hin).even
  rw [← hlock] at heven
  exact h.lock.free_of_even heven

theorem acquire_clock (hpc : (s.tx t).pc = .commitCas) (hlock : s.globalLock = (s.tx t).snapshot)
    (hbound : s.writers + 1 < 2 ^ 63) : (s.acquire t).globalLock.toNat = 2 * s.writers + 1 := by
  have hclock : s.globalLock.toNat = 2 * s.writers :=
    (h.free_of_snapshot (by simp [hpc, Pc.inside]) hlock).clock
  rw [State.acquire, ← hlock, BitVec.toNat_add, hclock]
  exact Nat.mod_eq_of_lt (by simp; omega)

theorem acquire (hpc : (s.tx t).pc = .commitCas) (hlock : s.globalLock = (s.tx t).snapshot)
    (hbound : s.writers + 1 < 2 ^ 63) :
    Inv m₀ (s.acquire t) ∧ SeqLock.Later m₀ s.view (s.acquire t).view := by
  have hin : (s.tx t).pc.inside = true := by simp [hpc, Pc.inside]
  have hfree := h.free_of_snapshot hin hlock
  have hclock : s.globalLock.toNat = 2 * s.writers := hfree.clock
  have hlegal := h.legal_snapshot hin
  rw [← hlock, hclock, Nat.mul_div_cancel_left _ (by decide)] at hlegal
  have hview : (s.acquire t).view =
      s.view.acquire t (s.tx t).ops (s.tx t).writeSet.reverse := by
    rw [view_eq (t := t) (w := some (s.tx t).writeSet.reverse) rfl rfl]
    refine congrArg (fun n => { s.view.acquire t (s.tx t).ops _ with clock := n }) ?_
    exact (h.acquire_clock hpc hlock hbound).trans (congrArg (· + 1) hclock.symm)
  have hstep : SeqLock.Inv m₀ (s.acquire t).view ∧ SeqLock.Later m₀ s.view (s.acquire t).view := by
    rw [hview]
    refine h.lock.step (.acquire _ _ (by rw [hfree.clock]; omega) ?_ (funext fun a => ?_))
    · rwa [hfree.mem]
    · rw [writeAll_reverse, ((h.tx t).recorded hin).sets.final_eq]
  refine h.put rfl hstep ?_ (fun rest _ => ?_) fun u hu => absurd (hfree.writing u) hu
  · exact ((h.tx t).goto (q := .writeBack _) hpc rfl rfl trivial).later hstep.2.clock
      hstep.2.mem
  · show (s.tx t).snapshot.toNat + 2 = 2 * (s.writers + 1)
    rw [← hlock, hclock]
    rfl

theorem writeBack {w : WordAddr × Word} {rest : List (WordAddr × Word)}
    (hpc : (s.tx t).pc = .writeBack (w :: rest)) :
    Inv m₀ (s.writeBack t w rest) ∧ SeqLock.Later m₀ s.view (s.writeBack t w rest).view := by
  have hview : (s.writeBack t w rest).view = s.view.writeBack t w rest :=
    view_eq (t := t) rfl rfl
  refine h.put rfl ?_ ?_ (fun _ _ => h.owner t _ hpc) fun _ _ => rfl
  · rw [hview]
    exact h.lock.step (.writeBack w rest (congrArg Pc.pending hpc))
  · exact (h.tx t).goto hpc rfl rfl trivial

theorem release_clock (hpc : (s.tx t).pc = .writeBack []) (hbound : s.writers < 2 ^ 63) :
    (s.release t).globalLock.toNat = 2 * s.writers := by
  have howner := h.owner t [] hpc
  have htwo : (2 : Word).toNat = 2 := rfl
  rw [State.release, BitVec.toNat_add, htwo]
  omega

theorem release (hpc : (s.tx t).pc = .writeBack []) (hbound : s.writers < 2 ^ 63) :
    Inv m₀ (s.release t) ∧ SeqLock.Later m₀ s.view (s.release t).view := by
  have hwriting : s.view.writing t = some [] := congrArg Pc.pending hpc
  have hview : (s.release t).view = s.view.release t := by
    rw [view_eq (t := t) (w := none) rfl rfl]
    refine congrArg (fun n => { s.view.release t with clock := n }) ?_
    exact (h.release_clock hpc hbound).trans (h.lock.held hwriting).clock.symm
  refine h.put rfl ?_ (.idle rfl rfl) (fun rest hpc' => by cases hpc') fun _ _ => rfl
  rw [hview]
  exact h.lock.step (.release hwriting)

end

end Inv

/-- The steps that the invariant is about: no write that `write_word_norec` skips,
and fewer than `2 ^ 63` writers. -/
def Bounded (_ : State) (l : ℕ × TxCall) (s' : State) : Prop :=
  WritesLow l.2 ∧ s'.writers < 2 ^ 63

instance (s : State) (l : ℕ × TxCall) (s' : State) : Decidable (Bounded s l s') :=
  inferInstanceAs (Decidable (_ ∧ _))

theorem Inv.step {l : ℕ × TxCall} (h : Inv m₀ s) (hs : NOrec.step s l = some s')
    (hb : Bounded s l s') : Inv m₀ s' ∧ SeqLock.Later m₀ s.view s'.view := by
  cases stepOf_move hs with
  | look x hx =>
      obtain ⟨hold, hnew⟩ := Tx.look_pending hx
      exact h.setTx ((h.tx _).look rfl h.lock.mem_of_even hb.1 hx) hold hnew
  | commitReadOnly hpc hro => exact h.commitReadOnly hpc hro
  | commitStart hpc hro =>
      refine h.setTx ?_ (by simp [hpc, Pc.pending]) rfl
      exact (h.tx _).goto hpc rfl rfl hro
  | acquire hpc hlock => exact h.acquire hpc hlock hb.2
  | busy hpc =>
      refine h.setTx ?_ (by simp [hpc, Pc.pending]) rfl
      have hro : (s.tx l.1).readOnly = false := (h.tx _).at hpc
      exact (h.tx _).goto hpc rfl rfl hro
  | writeBack w rest hpc => exact h.writeBack hpc
  | release hpc => exact h.release hpc hb.2

theorem Inv.run (h : Inv m₀ s) (hr : Run NOrec.step Bounded s s') :
    Inv m₀ s' ∧ SeqLock.Later m₀ s.view s'.view := by
  refine hr.induction_on (P := fun s' => Inv m₀ s' ∧ SeqLock.Later m₀ s.view s'.view)
    ⟨h, .of_eq rfl rfl⟩ ?_
  intro s₁ l s₂ _ h₁ hs hb
  obtain ⟨hinv, hlater⟩ := h₁.1.step hs hb
  exact ⟨hinv, h₁.2.trans hlater⟩

end Step

end NOrec
