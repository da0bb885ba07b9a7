import ClangTM.TinySTM.Wbetl.Basic
import ClangTM.TinySTM.View

/-!
# The spin token of WBETL

A transaction that has got the spin token waits for a lock without bound. The token is
taken with a compare-and-swap and given back in `abort_tx` only by its holder, but
`commit` gives it back whoever holds it. As long as no commit gives back the token of
another transaction, at most one transaction is between its acquisition of the token
and its own release, so two transactions never wait for each other.
-/

namespace TinySTM.Wbetl

open Transition

/-- The lock that a transaction waits for in one of the loops of `write_word_etl`. -/
def Tx.waitsFor (x : Tx) : Option LockIdx :=
  match x.pc with
  | .waitLocked a _ | .waitOwner a _ | .waitFree a _ => some (lockOf a)
  | _ => none

/-- Two transactions wait for a lock that the other one holds. -/
def Deadlocked (s : State Tx) (t u : TxId) : Prop :=
  ∃ ℓ ℓ', (s.tx t).waitsFor = some ℓ ∧ (s.tx u).waitsFor = some ℓ' ∧
    isLockedBy (s.shared.locks ℓ) u = true ∧ isLockedBy (s.shared.locks ℓ') t = true

/-- A commit gives back the token only if it is free or its own. -/
def ownRelease (s : State Tx) (l : TxId × TxCall) (_ : State Tx) : Prop :=
  (s.tx l.1).pc = .commitToken → s.shared.gTxToken = none ∨ s.shared.gTxToken = some l.1

instance (s : State Tx) (l : TxId × TxCall) (s' : State Tx) : Decidable (ownRelease s l s') :=
  inferInstanceAs (Decidable (_ → _))

section Steps

variable {t : TxId} {σ σ' : Shared} {x x' : Tx} {c : TxCall}

/-- What a step keeps of the token, if it does not acquire or release it. -/
structure TokenKept (x x' : Tx) : Prop where
  holds : x'.holdsToken = x.holdsToken
  waits : x'.waitsFor ≠ none → x.waitsFor ≠ none

namespace TokenKept

theorem of_none (hholds : x'.holdsToken = x.holdsToken) (hwaits : x'.waitsFor = none) :
    TokenKept x x' :=
  ⟨hholds, fun h => absurd hwaits h⟩

theorem refl (x : Tx) : TokenKept x x := ⟨rfl, id⟩

theorem softSpin (x : Tx) (k : Spinner) (a : WordAddr) (v : Word) :
    TokenKept x (x.softSpin k a v) := by
  unfold Tx.softSpin
  split <;> exact of_none rfl rfl

theorem tryLockFalse (x : Tx) (k : Attempt) (a : WordAddr) (v : Word) :
    TokenKept x (x.tryLockFalse a v k) := by
  cases k with
  | second => exact softSpin x .lost a v
  | _ => exact of_none rfl rfl

theorem readLoop (x : Tx) (a : WordAddr) (l : Word) : TokenKept x (x.readLoop a l) := by
  unfold Tx.readLoop
  split <;> exact of_none rfl rfl

theorem readCheck (x : Tx) (a : WordAddr) (l l2 value : Word) :
    TokenKept x (x.readCheck a l l2 value) := by
  unfold Tx.readCheck
  split
  · exact readLoop x a l2
  · split <;> exact of_none rfl rfl

theorem readWordEtl (hpc : x.pc = .body) (a : WordAddr) : TokenKept x (x.readWordEtl a) := by
  unfold Tx.readWordEtl
  split
  · exact of_none rfl (by simp [Tx.waitsFor, hpc])
  · exact of_none rfl rfl

theorem writeWordEtl (hpc : x.pc = .body) (a : WordAddr) (v : Word) :
    TokenKept x (x.writeWordEtl a v) := by
  unfold Tx.writeWordEtl
  split
  · exact of_none rfl (by simp [Tx.waitsFor, hpc])
  · exact of_none rfl rfl

theorem of_look (hs : Tx.look t σ x c = some x') : TokenKept x x' := by
  unfold Tx.look at hs
  split at hs
  all_goals try obtain rfl := Option.some.inj hs
  case h_1 =>
    unfold Tx.begin
    split <;> exact of_none rfl rfl
  case h_3 a hpc =>
    exact readWordEtl hpc a
  case h_4 a v hpc =>
    exact writeWordEtl hpc a v
  case h_5 =>
    unfold Tx.commit
    split <;> exact of_none rfl rfl
  case h_9 a _ =>
    exact readLoop x a _
  case h_11 a l value _ =>
    exact readCheck x a l _ value
  case h_13 a v _ =>
    split
    · exact softSpin x .held a v
    · exact of_none rfl rfl
  case h_14 hpc =>
    split <;> exact ⟨rfl, fun _ => by simp [Tx.waitsFor, hpc]⟩
  case h_15 hpc =>
    split <;> exact ⟨rfl, fun _ => by simp [Tx.waitsFor, hpc]⟩
  case h_21 last a l _ =>
    have hkept := readLoop { x with endVersion := last } a l
    exact ⟨hkept.holds, hkept.waits⟩
  case h_27 => simp at hs
  case h_2 | h_17 | h_19 =>
    split
    all_goals first | exact refl x | exact of_none rfl rfl
  case h_7 | h_12 | h_16 | h_18 | h_20 =>
    split <;> exact of_none rfl rfl
  all_goals exact of_none rfl rfl

end TokenKept

theorem tryLock_token (p : TryLockPc) (ℓ : LockIdx) :
    (p.step σ t ℓ).1.gTxToken = σ.gTxToken := by
  cases p with
  | load => rfl
  | cas current =>
      rw [TryLockPc.step]
      split <;> rfl

theorem unlock_token (p : UnlockPc) (ℓ : LockIdx) :
    (p.step σ t ℓ).1.gTxToken = σ.gTxToken := by
  cases p <;> rfl

theorem clock_token (p : ClockPc) : (p.step σ t).1.gTxToken = σ.gTxToken := by
  cases p with
  | cas =>
      rw [ClockPc.step]
      split <;> rfl
  | _ => rfl

inductive TokenStep (t : TxId) (σ : Shared) (x : Tx) (σ' : Shared) (x' : Tx) : Prop
  | keep (htoken : σ'.gTxToken = σ.gTxToken) (hkept : TokenKept x x')
  | acquire (hfree : σ.gTxToken = none) (htoken : σ'.gTxToken = some t)
      (hholds : x'.holdsToken = true)
  | commit (hpc : x.pc = .commitToken) (htoken : σ'.gTxToken = none)
      (hholds : x'.holdsToken = false) (hwaits : x'.waitsFor = none)
  | abort (htoken : σ' = σ.releaseTokenIfHeld t) (hholds : x'.holdsToken = false)
      (hwaits : x'.waitsFor = none)

theorem TokenStep.of_token {k : Spinner} {a : WordAddr} {v : Word} {p : TokenPc} :
    match p.step σ t with
    | (σ', .inl p') => TokenStep t σ x σ' { x with pc := .token k a v p' }
    | (σ', .inr true) => TokenStep t σ x σ' (x.tokenTrue a v k)
    | (σ', .inr false) => TokenStep t σ x σ' x.abortTx := by
  by_cases hfree : σ.gTxToken = none
  · cases p with
    | load =>
        simp only [TokenPc.step, hfree, if_true]
        exact .keep rfl (.of_none rfl rfl)
    | cas =>
        simp only [TokenPc.step, hfree, if_true]
        exact .acquire hfree rfl (by cases k <;> rfl)
  · cases p <;>
    · simp only [TokenPc.step, hfree, if_false]
      exact .keep rfl (.of_none rfl rfl)

theorem TokenStep.of_next (h : next t σ x c = some (σ', x')) : TokenStep t σ x σ' x' := by
  unfold next at h
  split at h
  case h_1 =>
    obtain ⟨rfl, rfl⟩ := pair_eq h
    exact .keep rfl (.of_none rfl rfl)
  case h_2 k a v p hpc =>
    have hstep := TokenStep.of_token (t := t) (σ := σ) (x := x) (k := k) (a := a) (v := v)
      (p := p)
    rcases hp : p.step σ t with ⟨σ₁, p' | _ | _⟩
    all_goals
      simp only [hp] at h hstep
      obtain ⟨rfl, rfl⟩ := pair_eq h
      exact hstep
  case h_3 k a v p hpc =>
    have htoken := tryLock_token (t := t) (σ := σ) p (lockOf a)
    rcases hp : p.step σ t (lockOf a) with ⟨σ₁, p' | _ | _⟩
    all_goals
      simp only [hp] at h htoken
      obtain ⟨rfl, rfl⟩ := pair_eq h
      first
      | exact .keep htoken (.of_none rfl rfl)
      | exact .keep htoken (.tryLockFalse x k a v)
  case h_4 p hpc =>
    have htoken := clock_token (t := t) (σ := σ) p
    rcases hp : p.step σ t with ⟨σ₁, p' | n⟩
    all_goals
      simp only [hp] at h htoken
      obtain ⟨rfl, rfl⟩ := pair_eq h
      exact .keep htoken (.of_none rfl rfl)
  case h_5 =>
    obtain ⟨rfl, rfl⟩ := pair_eq h
    refine .keep rfl ?_
    unfold writeByte
    split <;> exact .of_none rfl rfl
  case h_6 =>
    obtain ⟨rfl, rfl⟩ := pair_eq h
    exact .keep rfl (.of_none rfl rfl)
  case h_7 hpc =>
    obtain ⟨rfl, rfl⟩ := pair_eq h
    exact .commit hpc rfl rfl rfl
  case h_8 ℓ rest p hpc =>
    have htoken := unlock_token (t := t) (σ := σ) p ℓ
    rcases hp : p.step σ t ℓ with ⟨σ₁, p' | _⟩
    all_goals
      simp only [hp] at h htoken
      obtain ⟨rfl, rfl⟩ := pair_eq h
      exact .keep htoken (.of_none rfl rfl)
  case h_9 =>
    obtain ⟨rfl, rfl⟩ := pair_eq h
    exact .abort rfl rfl rfl
  case h_10 =>
    obtain ⟨x₁, hlook, rfl, rfl⟩ := map_pair_eq h
    exact .keep rfl (.of_look hlook)

end Steps

/-- The token belongs to the transaction that has acquired it and not released it, and
only such a transaction waits. -/
structure TokenInv (s : State Tx) : Prop where
  holder : ∀ t, (s.tx t).holdsToken = true → s.shared.gTxToken = some t
  waiter : ∀ t, (s.tx t).waitsFor ≠ none → (s.tx t).holdsToken = true

theorem TokenInv.step {s s' : State Tx} {l : TxId × TxCall} (h : TokenInv s)
    (hs : step s l = some s') (hok : ownRelease s l s') : TokenInv s' := by
  obtain ⟨σ, x, hnext, rfl⟩ := State.step_eq_some hs
  obtain ⟨t, c⟩ := l
  have hstep := TokenStep.of_next hnext
  refine ⟨fun u hu => ?_, fun u hu => ?_⟩
  · by_cases hut : u = t
    · subst hut
      rw [State.put_tx_self] at hu
      rcases hstep with ⟨htoken, hkept⟩ | ⟨-, htoken, -⟩ | ⟨-, -, hholds, -⟩ | ⟨-, hholds, -⟩
      · exact htoken.trans (h.holder u (hkept.holds ▸ hu))
      · exact htoken
      · simp [hholds] at hu
      · simp [hholds] at hu
    · rw [State.put_tx_of_ne hut] at hu
      have hold := h.holder u hu
      rcases hstep with ⟨htoken, -⟩ | ⟨hfree, -, -⟩ | ⟨hpc, -⟩ | ⟨rfl, -⟩
      · exact htoken.trans hold
      · simp [hold] at hfree
      · rcases hok hpc with hnone | hself
        · simp [hold] at hnone
        · exact absurd (Option.some.inj (hold.symm.trans hself)) hut
      · rw [State.put_shared, Shared.releaseTokenIfHeld, hold, if_neg (by simpa using hut)]
        exact hold
  · by_cases hut : u = t
    · subst hut
      rw [State.put_tx_self] at hu ⊢
      rcases hstep with ⟨-, hkept⟩ | ⟨-, -, hholds⟩ | ⟨-, -, -, hwaits⟩ | ⟨-, -, hwaits⟩
      · rw [hkept.holds]
        exact h.waiter u (hkept.waits hu)
      · exact hholds
      · exact absurd hwaits hu
      · exact absurd hwaits hu
    · rw [State.put_tx_of_ne hut] at hu ⊢
      exact h.waiter u hu

theorem TokenInv.run {m₀ : WordAddr → Word} {s : State Tx}
    (h : Run Wbetl.step ownRelease (init m₀) s) : TokenInv s :=
  h.induction_on (P := TokenInv) ⟨by simp [init], by simp [init, Tx.waitsFor]⟩
    fun _ _ _ _ hinv hs hok => hinv.step hs hok

/-- If commits give back only their own token, at most one transaction is between its
acquisition of the token and its release, and no two transactions wait for each
other. -/
theorem token_exclusive {m₀ : WordAddr → Word} {s : State Tx}
    (h : Run step ownRelease (init m₀) s) :
    (∀ t u, (s.tx t).holdsToken = true → (s.tx u).holdsToken = true → t = u) ∧
    ∀ t u, t ≠ u → ¬Deadlocked s t u := by
  have hinv := TokenInv.run h
  have hunique : ∀ t u, (s.tx t).holdsToken = true → (s.tx u).holdsToken = true → t = u :=
    fun t u ht hu => Option.some.inj ((hinv.holder t ht).symm.trans (hinv.holder u hu))
  refine ⟨hunique, ?_⟩
  rintro t u hne ⟨ℓ, ℓ', hℓ, hℓ', -⟩
  exact hne (hunique t u (hinv.waiter t (by simp [hℓ])) (hinv.waiter u (by simp [hℓ'])))

def lockWord (t : TxId) (a : WordAddr) (v : Word) : List (TxId × TxCall) :=
  (t, .write a v) :: taus t 4

/-- `t` starts again, reads a word whose lock another transaction holds, and aborts
without a lock. -/
def abortOnRead (t : TxId) (a : WordAddr) : List (TxId × TxCall) :=
  (t, .begin) :: (t, .read a) :: taus t 4

/-- `t` writes a word whose lock another transaction holds, takes the token and is in
the loop that waits. -/
def waitForWord (t : TxId) (a : WordAddr) (v : Word) : List (TxId × TxCall) :=
  (t, .write a v) :: taus t 4

/-- The third transaction holds a lock; the first two abort at it until they may take
the token. -/
def contend : List (TxId × TxCall) :=
  (thirdTx, .begin) :: (thirdTx, .tau) :: lockWord thirdTx thirdWord 1 ++
    (firstTx, .begin) :: (firstTx, .tau) :: (firstTx, .read thirdWord) :: taus firstTx 4 ++
    abortOnRead firstTx thirdWord ++ abortOnRead firstTx thirdWord ++
    (secondTx, .begin) :: (secondTx, .tau) :: (secondTx, .read thirdWord) :: taus secondTx 4 ++
    abortOnRead secondTx thirdWord ++ abortOnRead secondTx thirdWord

/-- A transaction that has got the token waits for a lock, and no other one can. -/
theorem token_exclusive_waiting : ∃ s, Run step ownRelease (init fun _ => 0) s ∧
    (s.tx firstTx).waitsFor = some (lockOf thirdWord) ∧
    (∀ u, (s.tx u).holdsToken = true → firstTx = u) ∧
    ∀ u, firstTx ≠ u → ¬Deadlocked s firstTx u := by
  obtain ⟨s, hr, hwaits, hholds⟩ :
      ∃ s, Run step ownRelease (init fun _ => 0) s ∧
        (s.tx firstTx).waitsFor = some (lockOf thirdWord) ∧ (s.tx firstTx).holdsToken = true :=
    exists_run_of_exec (.flatten [contend, [(firstTx, .begin)], waitForWord firstTx thirdWord 2])
      (by decide +kernel)
  obtain ⟨hunique, hdead⟩ := token_exclusive hr
  exact ⟨s, hr, hwaits, fun u hu => hunique firstTx u hholds hu, hdead firstTx⟩

/-- The commit of the third transaction gives back the token of the first one, which is
waiting for a lock of the second; the second takes the token too and waits for a lock
of the first. -/
theorem two_waiters : ∃ s, Run step anyStep (init fun _ => 0) s ∧
    (s.tx firstTx).holdsToken = true ∧ (s.tx secondTx).holdsToken = true ∧
    Deadlocked s firstTx secondTx := by
  obtain ⟨s, hr, hfirst, hsecond, hwaits, hwaits', hown, hown'⟩ :
      ∃ s, Run step anyStep (init fun _ => 0) s ∧ (s.tx firstTx).holdsToken = true ∧
        (s.tx secondTx).holdsToken = true ∧ (s.tx firstTx).waitsFor = some (lockOf secondWord) ∧
        (s.tx secondTx).waitsFor = some (lockOf firstWord) ∧
        isLockedBy (s.shared.locks (lockOf secondWord)) secondTx = true ∧
        isLockedBy (s.shared.locks (lockOf firstWord)) firstTx = true :=
    exists_run_of_exec (.flatten [contend, [(firstTx, .begin)], lockWord firstTx firstWord 1,
      [(secondTx, .begin)], lockWord secondTx secondWord 1, waitForWord firstTx secondWord 2,
      [(thirdTx, .commit)], taus thirdTx 15, waitForWord secondTx firstWord 2]) (by decide +kernel)
  exact ⟨s, hr, hfirst, hsecond, _, _, hwaits, hwaits', hown, hown'⟩

end TinySTM.Wbetl
