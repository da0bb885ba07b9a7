import Mathlib.Data.BitVec
import ClangTM.GaccO.Basic

/-!
# GaccO keeps its locks until the end

`Mine` is what a thread can rely on: it holds the locks on its list, memory under those locks is
what its transaction has made of the memory that the committed transactions have left, and the
undo log has the values of that memory. The others change neither, since they change memory only
under their own locks.
-/

namespace GaccO

open Serial Transition

/-- The accesses so far stand. -/
def Pc.live : Pc → Bool
  | .fresh | .out | .undo _ | .release _ => false
  | _ => true

def Pc.growing : Pc → Bool
  | .fresh | .out | .release _ => false
  | _ => true

def Tx.held (x : Tx) : List Addr :=
  match x.pc with
  | .fresh | .out => []
  | .release rest => rest
  | _ => x.locksHeld

/-- What is still to undo if the transaction restarts. -/
def Tx.undoing (x : Tx) : List (Addr × Word) :=
  match x.pc with
  | .fresh | .out | .release _ => []
  | .undo rest => rest
  | _ => x.undo

def Tx.Here (locks : LockIdx → Word) (x : Tx) : Prop :=
  match x.pc with
  | .load a => locks (lockIdx a) = x.tid
  | .loadOld a _ => locks (lockIdx a) = x.tid ∧ a ∉ x.writes
  | .store a _ => locks (lockIdx a) = x.tid ∧ a ∈ x.undo.map Prod.fst
  | _ => True

structure Mine (locks : LockIdx → Word) (mem m : Addr → Word) (x : Tx) : Prop where
  nodup : (x.locksHeld.map lockIdx).Nodup
  suffix : x.held <:+ x.locksHeld
  owned : ∀ ℓ, locks ℓ = x.tid ↔ ℓ ∈ x.held.map lockIdx
  undo : ∀ p ∈ x.undoing, p.2 = m p.1 ∧ locks (lockIdx p.1) = x.tid
  clean : ∀ a, locks (lockIdx a) = x.tid → a ∉ x.undoing.map Prod.fst → mem a = m a
  legal : x.pc.live = true → Legal m x.ops ∧ ∀ a, locks (lockIdx a) = x.tid →
      mem a = final m x.ops a
  touched : x.pc.growing = true → ∀ a, Touches x.ops a → locks (lockIdx a) = x.tid
  logged : x.pc.live = true → ∀ a, lastWrite x.ops a ≠ none → a ∈ x.writes
  saved : x.pc.live = true → ∀ a ∈ x.writes, a ∈ x.undo.map Prod.fst
  here : x.Here locks

/-- `m` is what the committed transactions have left. -/
structure Inv (m₀ m : Addr → Word) {T : Type} (s : Threads Shared Tx T) : Prop where
  serial : SerialRun m₀ s.shared.log m
  tid : ∀ t, (s.tx t).pc ≠ .fresh → (s.tx t).tid ≠ 0 ∧ (s.tx t).tid.toNat < s.shared.nextTid.toNat
  inj : ∀ t u, (s.tx t).pc ≠ .fresh → (s.tx u).pc ≠ .fresh → (s.tx t).tid = (s.tx u).tid → t = u
  next : 0 < s.shared.nextTid.toNat
  mine : ∀ t, (s.tx t).pc ≠ .fresh → Mine s.shared.locks s.shared.mem m (s.tx t)
  owner : ∀ ℓ, s.shared.locks ℓ ≠ 0 → ∃ t, (s.tx t).pc ≠ .fresh ∧ s.shared.locks ℓ = (s.tx t).tid
  free : ∀ a, s.shared.locks (lockIdx a) = 0 → s.shared.mem a = m a

section Mine

variable {locks locks' : LockIdx → Word} {mem mem' m m' : Addr → Word} {x : Tx}

theorem Mine.stable (h : Mine locks mem m x) (hlocks : ∀ ℓ, locks' ℓ = x.tid ↔ locks ℓ = x.tid)
    (hmem : ∀ a, locks (lockIdx a) = x.tid → mem' a = mem a)
    (hm : ∀ a, locks (lockIdx a) = x.tid → m' a = m a) : Mine locks' mem' m' x where
  nodup := h.nodup
  suffix := h.suffix
  owned ℓ := (hlocks ℓ).trans (h.owned ℓ)
  undo p hp := by
    obtain ⟨hval, hown⟩ := h.undo p hp
    exact ⟨hval.trans (hm _ hown).symm, (hlocks _).2 hown⟩
  clean a ha hno := by
    rw [hlocks] at ha
    rw [hmem a ha, hm a ha]
    exact h.clean a ha hno
  legal hlive := by
    obtain ⟨hlegal, hval⟩ := h.legal hlive
    have hgrow : x.pc.growing = true := by
      revert hlive
      cases x.pc <;> simp [Pc.live, Pc.growing]
    refine ⟨hlegal.congr fun p hp => hm _ (h.touched hgrow p.1 (.inr ⟨p.2, hp⟩)), fun a ha => ?_⟩
    rw [hlocks] at ha
    rw [hmem a ha, hval a ha, final_eq_getD, final_eq_getD, hm a ha]
  touched hg a ha := (hlocks _).2 (h.touched hg a ha)
  logged := h.logged
  saved := h.saved
  here := by
    have hhere := h.here
    unfold Tx.Here at hhere ⊢
    cases hpc : x.pc with
    | load a =>
        rw [hpc] at hhere
        exact (hlocks _).2 hhere
    | loadOld a v | store a v =>
        rw [hpc] at hhere
        exact ⟨(hlocks _).2 hhere.1, hhere.2⟩
    | _ => trivial

/-- The locks are about to be released, and memory under them is as it should be. -/
theorem Mine.releaseFrom {rest : List Addr} (hnodup : (x.locksHeld.map lockIdx).Nodup)
    (hsuffix : rest <:+ x.locksHeld) (howned : ∀ ℓ, locks ℓ = x.tid ↔ ℓ ∈ rest.map lockIdx)
    (hclean : ∀ a, locks (lockIdx a) = x.tid → mem a = m a) :
    Mine locks mem m (x.releaseFrom rest) := by
  cases rest with
  | nil =>
      exact ⟨.nil, List.nil_suffix, howned, fun p hp => (by cases hp),
        fun a ha _ => hclean a ha, nofun, nofun, nofun, nofun, trivial⟩
  | cons a rest =>
      exact ⟨hnodup, hsuffix, howned, fun p hp => (by cases hp),
        fun a ha _ => hclean a ha, nofun, nofun, nofun, nofun, trivial⟩

theorem Mine.undoFrom {rest : List (Addr × Word)} (hnodup : (x.locksHeld.map lockIdx).Nodup)
    (howned : ∀ ℓ, locks ℓ = x.tid ↔ ℓ ∈ x.locksHeld.map lockIdx)
    (hundo : ∀ p ∈ rest, p.2 = m p.1 ∧ locks (lockIdx p.1) = x.tid)
    (hclean : ∀ a, locks (lockIdx a) = x.tid → a ∉ rest.map Prod.fst → mem a = m a)
    (htouched : ∀ a, Touches x.ops a → locks (lockIdx a) = x.tid) :
    Mine locks mem m (x.undoFrom rest) := by
  cases rest with
  | nil => exact .releaseFrom hnodup (List.suffix_refl _) howned fun a ha => hclean a ha (by simp)
  | cons p rest =>
      exact ⟨hnodup, List.suffix_refl _, howned, hundo, hclean, nofun,
        fun _ => htouched, nofun, nofun, trivial⟩

theorem held_of_live (hlive : x.pc.live = true) :
    x.held = x.locksHeld ∧ x.undoing = x.undo ∧ x.pc.growing = true := by
  revert hlive
  unfold Tx.held Tx.undoing
  cases x.pc <;> simp [Pc.live, Pc.growing]

section

variable (h : Mine locks mem m x) (hlive : x.pc.live = true)
include h hlive

theorem Mine.restart : Mine locks mem m x.restart := by
  obtain ⟨hheld, hundo, hgrow⟩ := held_of_live hlive
  have howned := h.owned
  have hundo' := h.undo
  have hclean := h.clean
  rw [hheld] at howned
  rw [hundo] at hundo' hclean
  refine .undoFrom h.nodup howned (fun p hp => hundo' p (List.mem_reverse.1 hp))
    (fun a ha hno => hclean a ha ?_) (h.touched hgrow)
  rw [List.map_reverse] at hno
  exact fun hmem => hno (List.mem_reverse.2 hmem)

theorem Mine.goto {p : Pc} (hp : p.live = true) (hhere : { x with pc := p }.Here locks) :
    Mine locks mem m { x with pc := p } := by
  obtain ⟨hheld, hundo, hgrow⟩ := held_of_live hlive
  obtain ⟨hheld', hundo', -⟩ := held_of_live (x := { x with pc := p }) hp
  refine ⟨h.nodup, ?_, ?_, ?_, ?_, fun _ => h.legal hlive, fun _ => h.touched hgrow,
    fun _ => h.logged hlive, fun _ => h.saved hlive, hhere⟩
  · rw [hheld']
  · rw [hheld', ← hheld]
    exact h.owned
  · rw [hundo', ← hundo]
    exact h.undo
  · rw [hundo', ← hundo]
    exact h.clean

theorem Mine.acquired {k : Access} (hown : locks (lockIdx k.addr) = x.tid) :
    Mine locks mem m (x.acquired k) := by
  cases k with
  | read a => exact h.goto hlive rfl hown
  | write a v =>
      unfold Tx.acquired
      dsimp only
      split
      · next ha => exact h.goto hlive rfl ⟨hown, h.saved hlive a ha⟩
      · next ha => exact h.goto hlive rfl ⟨hown, ha⟩

theorem Mine.failed (k : Access) (n : ℕ) : Mine locks mem m (x.failed k n) := by
  unfold Tx.failed
  split
  · exact h.goto hlive rfl trivial
  · exact h.restart hlive

end

end Mine

section Run

variable {T : Type} [DecidableEq T] {m₀ m m' : Addr → Word} {s : Threads Shared Tx T} {t : T}
  {σ : Shared} {x : Tx}

/-- A step of `t`: it takes a free lock or gives one back, changes memory only under its own
locks, and commits only writes under them. -/
theorem Inv.put (hi : Inv m₀ m s) (ht : (s.tx t).pc ≠ .fresh) (htid : x.tid = (s.tx t).tid)
    (hx : x.pc ≠ .fresh) (hnext : σ.nextTid = s.shared.nextTid) (hserial : SerialRun m₀ σ.log m')
    (hlocks : ∀ ℓ, σ.locks ℓ = s.shared.locks ℓ ∨
      s.shared.locks ℓ = 0 ∧ σ.locks ℓ = (s.tx t).tid ∨
      s.shared.locks ℓ = (s.tx t).tid ∧ σ.locks ℓ = 0)
    (hmem : ∀ a, s.shared.locks (lockIdx a) ≠ (s.tx t).tid → σ.mem a = s.shared.mem a)
    (hm : ∀ a, s.shared.locks (lockIdx a) ≠ (s.tx t).tid → m' a = m a)
    (hfree : ∀ a, s.shared.locks (lockIdx a) = (s.tx t).tid → σ.locks (lockIdx a) = 0 →
      σ.mem a = m' a)
    (hmine : Mine σ.locks σ.mem m' x) : Inv m₀ m' (s.put t σ x) := by
  have hpc : ∀ u, ((s.put t σ x).tx u).pc ≠ .fresh → (s.tx u).pc ≠ .fresh := by
    intro u hu
    by_cases hut : u = t
    · rwa [hut]
    · rwa [Threads.put_tx_of_ne hut] at hu
  have htids : ∀ u, ((s.put t σ x).tx u).tid = (s.tx u).tid := by
    intro u
    by_cases hut : u = t
    · rw [hut, Threads.put_tx_self, htid]
    · rw [Threads.put_tx_of_ne hut]
  have hne : ∀ u, u ≠ t → (s.tx u).pc ≠ .fresh → (s.tx u).tid ≠ (s.tx t).tid :=
    fun u hut hu h => hut (hi.inj u t hu ht h)
  refine ⟨hserial, fun u hu => ?_, fun u v hu hv h => ?_, ?_, fun u hu => ?_, fun ℓ hℓ => ?_,
    fun a ha => ?_⟩
  · rw [htids, Threads.put_shared, hnext]
    exact hi.tid u (hpc u hu)
  · rw [htids, htids] at h
    exact hi.inj u v (hpc u hu) (hpc v hv) h
  · rw [Threads.put_shared, hnext]
    exact hi.next
  · by_cases hut : u = t
    · subst hut
      rw [Threads.put_tx_self]
      exact hmine
    · have hu' := hpc u hu
      have hzero := (hi.tid u hu').1
      rw [Threads.put_tx_of_ne hut]
      refine (hi.mine u hu').stable (fun ℓ => ?_) (fun a ha => hmem a ?_) fun a ha => hm a ?_
      · show σ.locks ℓ = _ ↔ _
        rcases hlocks ℓ with h | ⟨h, h'⟩ | ⟨h, h'⟩
        · rw [h]
        · rw [h, h']
          exact ⟨fun h => absurd h.symm (hne u hut hu'), fun h => absurd h.symm hzero⟩
        · rw [h, h']
          exact ⟨fun h => absurd h.symm hzero, fun h => absurd h.symm (hne u hut hu')⟩
      · rw [ha]
        exact hne u hut hu'
      · rw [ha]
        exact hne u hut hu'
  · rw [Threads.put_shared] at hℓ ⊢
    by_cases hown : σ.locks ℓ = (s.tx t).tid
    · exact ⟨t, by rwa [Threads.put_tx_self], hown.trans (htids t).symm⟩
    · rcases hlocks ℓ with h | ⟨-, h⟩ | ⟨-, h⟩
      · obtain ⟨u, hu, hℓu⟩ := hi.owner ℓ (by rwa [← h])
        have hut : u ≠ t := by
          rintro rfl
          exact hown (h.trans hℓu)
        exact ⟨u, by rwa [Threads.put_tx_of_ne hut], by rw [htids, h, hℓu]⟩
      · exact absurd h hown
      · exact absurd h hℓ
  · by_cases hown : s.shared.locks (lockIdx a) = (s.tx t).tid
    · exact hfree a hown ha
    · rcases hlocks (lockIdx a) with h | ⟨-, h⟩ | ⟨h, -⟩
      · rw [Threads.put_shared, hmem a hown, hm a hown]
        exact hi.free a (by rw [← h]; exact ha)
      · exact absurd (h.symm.trans ha) (hi.tid t ht).1
      · exact absurd h hown

theorem Inv.local (hi : Inv m₀ m s) (ht : (s.tx t).pc ≠ .fresh) (htid : x.tid = (s.tx t).tid)
    (hx : x.pc ≠ .fresh) (hmine : Mine s.shared.locks s.shared.mem m x) :
    Inv m₀ m (s.put t s.shared x) :=
  hi.put ht htid hx rfl hi.serial (fun _ => .inl rfl) (fun _ _ => rfl) (fun _ _ => rfl)
    (fun _ hown hzero => absurd (hown.symm.trans hzero) (hi.tid t ht).1) hmine

theorem restart_tid (x : Tx) : x.restart.tid = x.tid ∧ x.restart.pc ≠ .fresh := by
  unfold Tx.restart Tx.undoFrom Tx.releaseFrom
  split
  · split <;> simp
  · simp

theorem acquired_tid (x : Tx) (k : Access) :
    (x.acquired k).tid = x.tid ∧ (x.acquired k).pc ≠ .fresh := by
  cases k with
  | read a => simp [Tx.acquired]
  | write a v =>
      refine ⟨rfl, ?_⟩
      unfold Tx.acquired
      dsimp only
      split <;> simp

theorem failed_tid (x : Tx) (k : Access) (n : ℕ) :
    (x.failed k n).tid = x.tid ∧ (x.failed k n).pc ≠ .fresh := by
  unfold Tx.failed
  split
  · simp
  · exact restart_tid x

section Steps

variable (hi : Inv m₀ m s)

include hi

theorem begin_inv (hpc : (s.tx t).pc = .out) :
    Inv m₀ m (s.put t s.shared { pc := .body, tid := (s.tx t).tid }) := by
  have ht : (s.tx t).pc ≠ .fresh := by simp [hpc]
  have h := hi.mine t ht
  have howned := h.owned
  have hheld : (s.tx t).held = [] := by simp [Tx.held, hpc]
  rw [hheld] at howned
  have hnone : ∀ ℓ, s.shared.locks ℓ ≠ (s.tx t).tid := fun ℓ hℓ => by
    have := (howned ℓ).1 hℓ
    cases this
  refine hi.local ht rfl (by simp) ⟨.nil, List.suffix_refl _, howned, fun p hp => (by cases hp),
    fun a ha => absurd ha (hnone _), fun _ => ⟨trivial, fun a ha => absurd ha (hnone _)⟩,
    fun _ a ha => ?_, fun _ a ha => absurd rfl ha, fun _ a ha => (by cases ha), trivial⟩
  rcases ha with ⟨w, hw⟩ | ⟨v, hv⟩
  · cases hw
  · cases hv

theorem take_inv {k : Access} {n : ℕ} (hpc : (s.tx t).pc = .acquire k n)
    (hfree : s.shared.locks (lockIdx k.addr) = 0) :
    Inv m₀ m (s.put t
      { s.shared with locks := Function.update s.shared.locks (lockIdx k.addr) (s.tx t).tid }
      ({ s.tx t with locksHeld := (s.tx t).locksHeld ++ [k.addr] }.acquired k)) := by
  have ht : (s.tx t).pc ≠ .fresh := by simp [hpc]
  have hlive : (s.tx t).pc.live = true := by simp [hpc, Pc.live]
  have h := hi.mine t ht
  obtain ⟨hheld, hundoing, hgrow⟩ := held_of_live hlive
  have hzero := (hi.tid t ht).1
  have hnew : ∀ ℓ, Function.update s.shared.locks (lockIdx k.addr) (s.tx t).tid ℓ = (s.tx t).tid ↔
      s.shared.locks ℓ = (s.tx t).tid ∨ ℓ = lockIdx k.addr := by
    intro ℓ
    by_cases hℓ : ℓ = lockIdx k.addr
    · simp [hℓ]
    · simp [hℓ]
  have howned := h.owned
  rw [hheld] at howned
  have hnot : lockIdx k.addr ∉ (s.tx t).locksHeld.map lockIdx := fun hmem => by
    rw [← howned, hfree] at hmem
    exact hzero hmem.symm
  have hfresh : ∀ a, lockIdx a = lockIdx k.addr → s.shared.mem a = m a ∧
      lastWrite (s.tx t).ops a = none := by
    intro a ha
    refine ⟨hi.free a (by rw [ha, hfree]), ?_⟩
    by_contra hne
    have := h.touched hgrow a (.inl (Option.ne_none_iff_exists'.1 hne))
    rw [ha, hfree] at this
    exact hzero this.symm
  have hmine : Mine (Function.update s.shared.locks (lockIdx k.addr) (s.tx t).tid) s.shared.mem m
      { s.tx t with locksHeld := (s.tx t).locksHeld ++ [k.addr] } := by
    obtain ⟨hheld', hundoing', -⟩ :=
      held_of_live (x := { s.tx t with locksHeld := (s.tx t).locksHeld ++ [k.addr] }) hlive
    refine ⟨?_, ?_, fun ℓ => ?_, fun p hp => ?_, fun a ha hno => ?_, fun _ => ?_, fun _ a ha => ?_,
      fun _ => h.logged hlive, fun _ => h.saved hlive, ?_⟩
    · simp only [List.map_append, List.map_cons, List.map_nil]
      exact List.nodup_append.2 ⟨h.nodup, by simp, fun a ha b hb hab => hnot (by simp_all)⟩
    · rw [hheld']
    · rw [hheld', List.map_append, List.mem_append, ← howned]
      simpa using hnew ℓ
    · obtain ⟨hval, hown⟩ := h.undo p hp
      exact ⟨hval, (hnew _).2 (.inl hown)⟩
    · rcases (hnew _).1 ha with hown | ha
      · exact h.clean a hown hno
      · exact (hfresh a ha).1
    · obtain ⟨hlegal, hval⟩ := h.legal hlive
      refine ⟨hlegal, fun a ha => ?_⟩
      rcases (hnew _).1 ha with hown | ha
      · exact hval a hown
      · rw [(hfresh a ha).1, final_of_none (hfresh a ha).2]
    · exact (hnew _).2 (.inl (h.touched hgrow a ha))
    · unfold Tx.Here
      rw [hpc]
      trivial
  obtain ⟨htid, hx⟩ :=
    acquired_tid { s.tx t with locksHeld := (s.tx t).locksHeld ++ [k.addr] } k
  refine hi.put ht htid hx rfl hi.serial (fun ℓ => ?_) (fun _ _ => rfl) (fun _ _ => rfl)
    (fun a hown ha => ?_) (hmine.acquired hlive (Function.update_self _ _ _))
  · by_cases hℓ : ℓ = lockIdx k.addr
    · subst hℓ
      exact .inr (.inl ⟨hfree, Function.update_self _ _ _⟩)
    · exact .inl (Function.update_of_ne hℓ _ _)
  · have := (hnew (lockIdx a)).2 (.inl hown)
    exact absurd (this.symm.trans ha) hzero

theorem load_inv {a : Addr} (hpc : (s.tx t).pc = .load a) :
    Inv m₀ m (s.put t s.shared
      { s.tx t with
        pc := .body
        reads := (s.tx t).reads ++ [a]
        ops := .read a (s.shared.mem a) :: (s.tx t).ops }) := by
  have ht : (s.tx t).pc ≠ .fresh := by simp [hpc]
  have hlive : (s.tx t).pc.live = true := by simp [hpc, Pc.live]
  have h := hi.mine t ht
  have hown : s.shared.locks (lockIdx a) = (s.tx t).tid := by
    have := h.here
    unfold Tx.Here at this
    rwa [hpc] at this
  have hbody := h.goto hlive (p := .body) rfl trivial
  obtain ⟨hlegal, hval⟩ := hbody.legal rfl
  refine hi.local ht rfl (by simp) ⟨hbody.nodup, hbody.suffix, hbody.owned, hbody.undo,
    hbody.clean, fun _ => ⟨⟨(hval a hown).symm, hlegal⟩, hval⟩, fun _ b hb => ?_,
    fun _ => hbody.logged rfl, fun _ => hbody.saved rfl, trivial⟩
  by_cases hba : b = a
  · rw [hba]
    exact hown
  · refine hbody.touched rfl b ?_
    rcases hb with hw | ⟨v, hv⟩
    · exact .inl hw
    · refine .inr ⟨v, ?_⟩
      unfold external at hv
      split at hv
      · exact hv
      · rcases List.mem_cons.1 hv with hv | hv
        · exact absurd (Prod.mk.inj hv).1 hba
        · exact hv

theorem loadOld_inv {a : Addr} {v : Word} (hpc : (s.tx t).pc = .loadOld a v) :
    Inv m₀ m (s.put t s.shared
      { s.tx t with pc := .store a v, undo := (s.tx t).undo ++ [(a, s.shared.mem a)] }) := by
  have ht : (s.tx t).pc ≠ .fresh := by simp [hpc]
  have hlive : (s.tx t).pc.live = true := by simp [hpc, Pc.live]
  have h := hi.mine t ht
  obtain ⟨hown, hnew⟩ : s.shared.locks (lockIdx a) = (s.tx t).tid ∧ a ∉ (s.tx t).writes := by
    have := h.here
    unfold Tx.Here at this
    rwa [hpc] at this
  have hbody := h.goto hlive (p := .body) rfl trivial
  obtain ⟨hlegal, hval⟩ := hbody.legal rfl
  have hnone : lastWrite (s.tx t).ops a = none := by
    by_contra hne
    exact hnew (hbody.logged rfl a hne)
  have hold : s.shared.mem a = m a := (hval a hown).trans (final_of_none hnone)
  refine hi.local ht rfl (by simp) ⟨hbody.nodup, hbody.suffix, hbody.owned, fun p hp => ?_,
    fun b hb hno => hbody.clean b hb fun hmem => hno ?_, fun _ => ⟨hlegal, hval⟩,
    fun _ => hbody.touched rfl, fun _ => hbody.logged rfl, fun _ b hb => ?_, hown, ?_⟩
  · rcases List.mem_append.1 hp with hp | hp
    · exact hbody.undo p hp
    · rw [List.mem_singleton.1 hp]
      exact ⟨hold, hown⟩
  · rw [Tx.undoing, List.map_append]
    exact List.mem_append_left _ hmem
  · rw [List.map_append]
    exact List.mem_append_left _ (hbody.saved rfl b hb)
  · simp

theorem store_inv {a : Addr} {v : Word} (hpc : (s.tx t).pc = .store a v) :
    Inv m₀ m (s.put t { s.shared with mem := Function.update s.shared.mem a v }
      { s.tx t with
        pc := .body
        writes := (s.tx t).writes ++ [a]
        ops := .write a v :: (s.tx t).ops }) := by
  have ht : (s.tx t).pc ≠ .fresh := by simp [hpc]
  have hlive : (s.tx t).pc.live = true := by simp [hpc, Pc.live]
  have h := hi.mine t ht
  obtain ⟨hown, hsaved⟩ :
      s.shared.locks (lockIdx a) = (s.tx t).tid ∧ a ∈ (s.tx t).undo.map Prod.fst := by
    have := h.here
    unfold Tx.Here at this
    rwa [hpc] at this
  have hbody := h.goto hlive (p := .body) rfl trivial
  obtain ⟨hlegal, hval⟩ := hbody.legal rfl
  refine hi.put ht rfl (by simp) rfl hi.serial (fun _ => .inl rfl) (fun b hb => ?_)
    (fun _ _ => rfl) (fun b hb hz => absurd (hb.symm.trans hz) (hi.tid t ht).1)
    ⟨hbody.nodup, hbody.suffix, hbody.owned, hbody.undo, fun b hb hno => ?_,
      fun _ => ⟨hlegal, fun b hb => ?_⟩, fun _ b hb => ?_, fun _ b hb => ?_, fun _ b hb => ?_,
      trivial⟩
  · refine Function.update_of_ne ?_ _ _
    rintro rfl
    exact hb hown
  · have hne : b ≠ a := by
      rintro rfl
      exact hno hsaved
    exact (Function.update_of_ne hne _ _).trans (hbody.clean b hb hno)
  · show Function.update s.shared.mem a v b = Function.update (final m (s.tx t).ops) a v b
    by_cases hba : b = a
    · subst hba
      rw [Function.update_self, Function.update_self]
    · rw [Function.update_of_ne hba, Function.update_of_ne hba]
      exact hval b hb
  · by_cases hba : b = a
    · rw [hba]
      exact hown
    · refine hbody.touched rfl b ?_
      rcases hb with ⟨w, hw⟩ | hv
      · rw [lastWrite_write, if_neg hba] at hw
        exact .inl ⟨w, hw⟩
      · exact .inr hv
  · rw [lastWrite_write] at hb
    split at hb
    · next hba => simp [hba]
    · exact List.mem_append_left _ (hbody.logged rfl b hb)
  · rcases List.mem_append.1 hb with hb | hb
    · exact hbody.saved rfl b hb
    · rw [List.mem_singleton.1 hb]
      exact hsaved

theorem validateFrom_inv (hlive : (s.tx t).pc.live = true) (rest : List Addr) :
    ∃ m', Inv m₀ m' (s.put t (validateFrom s.shared (s.tx t) rest).1
      (validateFrom s.shared (s.tx t) rest).2) := by
  have ht : (s.tx t).pc ≠ .fresh := by
    rintro hpc
    simp [hpc, Pc.live] at hlive
  have h := hi.mine t ht
  obtain ⟨hheld, -, hgrow⟩ := held_of_live hlive
  cases rest with
  | cons a rest => exact ⟨m, hi.local ht rfl (by simp [validateFrom]) (h.goto hlive rfl trivial)⟩
  | nil =>
      obtain ⟨hlegal, hval⟩ := h.legal hlive
      have howned := h.owned
      rw [hheld] at howned
      have hx : ((s.tx t).releaseFrom (s.tx t).locksHeld).tid = (s.tx t).tid ∧
          ((s.tx t).releaseFrom (s.tx t).locksHeld).pc ≠ .fresh := by
        unfold Tx.releaseFrom
        split <;> simp
      refine ⟨final m (s.tx t).ops, hi.put ht hx.1 hx.2 rfl
        (serialRun_append hi.serial ⟨hlegal, rfl⟩) (fun _ => .inl rfl) (fun _ _ => rfl)
        (fun a ha => final_of_none ?_)
        (fun a ha hz => absurd (ha.symm.trans hz) (hi.tid t ht).1)
        (.releaseFrom h.nodup (List.suffix_refl _) howned hval)⟩
      by_contra hne
      exact ha (h.touched hgrow a (.inl (Option.ne_none_iff_exists'.1 hne)))

theorem restart_inv (hlive : (s.tx t).pc.live = true) :
    Inv m₀ m (s.put t s.shared (s.tx t).restart) := by
  have ht : (s.tx t).pc ≠ .fresh := by
    rintro hpc
    simp [hpc, Pc.live] at hlive
  exact hi.local ht (restart_tid _).1 (restart_tid _).2 ((hi.mine t ht).restart hlive)

theorem undo_inv {u : Addr × Word} {rest : List (Addr × Word)}
    (hpc : (s.tx t).pc = .undo (u :: rest)) :
    Inv m₀ m (s.put t { s.shared with mem := Function.update s.shared.mem u.1 u.2 }
      ((s.tx t).undoFrom rest)) := by
  have ht : (s.tx t).pc ≠ .fresh := by simp [hpc]
  have h := hi.mine t ht
  have hundo := h.undo
  have hclean := h.clean
  have howned := h.owned
  have hundoing : (s.tx t).undoing = u :: rest := by simp [Tx.undoing, hpc]
  have hheld : (s.tx t).held = (s.tx t).locksHeld := by simp [Tx.held, hpc]
  rw [hundoing] at hundo hclean
  rw [hheld] at howned
  obtain ⟨hval, hown⟩ := hundo u List.mem_cons_self
  have hx : ((s.tx t).undoFrom rest).tid = (s.tx t).tid ∧ ((s.tx t).undoFrom rest).pc ≠ .fresh := by
    unfold Tx.undoFrom Tx.releaseFrom
    split
    · split <;> simp
    · simp
  refine hi.put ht hx.1 hx.2 rfl hi.serial (fun _ => .inl rfl) (fun b hb => ?_) (fun _ _ => rfl)
    (fun b hb hz => absurd (hb.symm.trans hz) (hi.tid t ht).1)
    (.undoFrom h.nodup howned (fun p hp => hundo p (List.mem_cons_of_mem _ hp))
      (fun b hb hno => ?_) (h.touched (by simp [hpc, Pc.growing])))
  · refine Function.update_of_ne ?_ _ _
    rintro rfl
    exact hb hown
  · by_cases hbu : b = u.1
    · subst hbu
      exact (Function.update_self _ _ _).trans hval
    · refine (Function.update_of_ne hbu _ _).trans (hclean b hb ?_)
      simpa [hbu] using hno

theorem release_inv {a : Addr} {rest : List Addr} (hpc : (s.tx t).pc = .release (a :: rest)) :
    Inv m₀ m (s.put t { s.shared with locks := Function.update s.shared.locks (lockIdx a) 0 }
      ((s.tx t).releaseFrom rest)) := by
  have ht : (s.tx t).pc ≠ .fresh := by simp [hpc]
  have h := hi.mine t ht
  have hzero := (hi.tid t ht).1
  have hheld : (s.tx t).held = a :: rest := by simp [Tx.held, hpc]
  have hundoing : (s.tx t).undoing = [] := by simp [Tx.undoing, hpc]
  have howned := h.owned
  have hsuffix := h.suffix
  have hclean : ∀ b, s.shared.locks (lockIdx b) = (s.tx t).tid → s.shared.mem b = m b :=
    fun b hb => h.clean b hb (by simp [hundoing])
  rw [hheld] at howned hsuffix
  have hown := (howned (lockIdx a)).2 List.mem_cons_self
  have hnot : lockIdx a ∉ rest.map lockIdx := by
    have := h.nodup.sublist (hsuffix.sublist.map lockIdx)
    rw [List.map_cons, List.nodup_cons] at this
    exact this.1
  have hnew : ∀ ℓ, Function.update s.shared.locks (lockIdx a) 0 ℓ = (s.tx t).tid ↔
      ℓ ∈ rest.map lockIdx := by
    intro ℓ
    by_cases hℓ : ℓ = lockIdx a
    · subst hℓ
      rw [Function.update_self]
      exact ⟨fun h => absurd h.symm hzero, fun h => absurd h hnot⟩
    · rw [Function.update_of_ne hℓ, howned]
      simp [hℓ]
  have hx : ((s.tx t).releaseFrom rest).tid = (s.tx t).tid ∧
      ((s.tx t).releaseFrom rest).pc ≠ .fresh := by
    unfold Tx.releaseFrom
    split <;> simp
  refine hi.put ht hx.1 hx.2 rfl hi.serial (fun ℓ => ?_) (fun _ _ => rfl) (fun _ _ => rfl)
    (fun b hb _ => hclean b hb)
    (.releaseFrom h.nodup ((List.suffix_cons a rest).trans hsuffix) hnew fun b hb => hclean b ?_)
  · by_cases hℓ : ℓ = lockIdx a
    · subst hℓ
      exact .inr (.inr ⟨hown, Function.update_self _ _ _⟩)
    · exact .inl (Function.update_of_ne hℓ _ _)
  · exact (howned _).2 (List.mem_cons_of_mem _ ((hnew _).1 hb))

theorem initThread_inv (hpc : (s.tx t).pc = .fresh) (hlt : s.shared.nextTid.toNat + 1 < 2 ^ 64) :
    Inv m₀ m (s.put t { s.shared with nextTid := s.shared.nextTid + 1 }
      { pc := .out, tid := s.shared.nextTid }) := by
  have hsucc : (s.shared.nextTid + 1).toNat = s.shared.nextTid.toNat + 1 := by
    rw [BitVec.toNat_add]
    exact Nat.mod_eq_of_lt hlt
  have hzero : s.shared.nextTid ≠ 0 := by
    intro h
    have := hi.next
    rw [h] at this
    exact absurd this (by decide)
  have hother : ∀ u, u ≠ t → ((s.put t { s.shared with nextTid := s.shared.nextTid + 1 }
      { pc := .out, tid := s.shared.nextTid }).tx u) = s.tx u :=
    fun u hu => Threads.put_tx_of_ne hu
  have hne : ∀ u, (s.tx u).pc ≠ .fresh → (s.tx u).tid ≠ s.shared.nextTid := fun u hu h => by
    have := (hi.tid u hu).2
    rw [h] at this
    exact lt_irrefl _ this
  have hnone : ∀ ℓ, s.shared.locks ℓ ≠ s.shared.nextTid := fun ℓ hℓ => by
    obtain ⟨u, hu, hℓu⟩ := hi.owner ℓ (by rw [hℓ]; exact hzero)
    exact hne u hu (hℓu.symm.trans hℓ)
  refine ⟨hi.serial, fun u hu => ?_, fun u v hu hv huv => ?_, ?_, fun u hu => ?_, fun ℓ hℓ => ?_,
    hi.free⟩
  · rw [Threads.put_shared, hsucc]
    by_cases hut : u = t
    · subst hut
      rw [Threads.put_tx_self]
      exact ⟨hzero, Nat.lt_succ_self _⟩
    · rw [hother u hut] at hu ⊢
      exact ⟨(hi.tid u hu).1, (hi.tid u hu).2.trans (Nat.lt_succ_self _)⟩
  · by_cases hut : u = t
    · by_cases hvt : v = t
      · rw [hut, hvt]
      · rw [hother v hvt] at hv huv
        rw [hut, Threads.put_tx_self] at huv
        exact absurd huv.symm (hne v hv)
    · by_cases hvt : v = t
      · rw [hother u hut] at hu huv
        rw [hvt, Threads.put_tx_self] at huv
        exact absurd huv (hne u hu)
      · rw [hother u hut] at hu huv
        rw [hother v hvt] at hv huv
        exact hi.inj u v hu hv huv
  · rw [Threads.put_shared, hsucc]
    exact Nat.succ_pos _
  · by_cases hut : u = t
    · subst hut
      rw [Threads.put_tx_self]
      exact ⟨.nil, List.nil_suffix, fun ℓ => ⟨fun h => absurd h (hnone ℓ), fun h => (by cases h)⟩,
        fun p hp => (by cases hp), fun a ha => absurd ha (hnone _), nofun, nofun, nofun, nofun,
        trivial⟩
    · rw [hother u hut] at hu ⊢
      exact hi.mine u hu
  · obtain ⟨u, hu, hℓu⟩ := hi.owner ℓ hℓ
    have hut : u ≠ t := by
      rintro rfl
      exact hu hpc
    exact ⟨u, by rwa [hother u hut], by rw [hother u hut]; exact hℓu⟩

end Steps

def Bounded (s : Threads Shared Tx T) (l : T × Call) (_ : Threads Shared Tx T) : Prop :=
  match (s.tx l.1).pc, l.2 with
  | .fresh, .initThread => s.shared.nextTid.toNat + 1 < 2 ^ 64
  | _, _ => True

instance (s : Threads Shared Tx T) (l : T × Call) (s' : Threads Shared Tx T) :
    Decidable (Bounded s l s') := by
  unfold Bounded
  split <;> infer_instance

theorem acquire_inv (hi : Inv m₀ m s) {k : Access} {n : ℕ} (hpc : (s.tx t).pc = .acquire k n)
    (weak : Bool) : Inv m₀ m (s.put t (acquire s.shared (s.tx t) weak k n).1
      (acquire s.shared (s.tx t) weak k n).2) := by
  have ht : (s.tx t).pc ≠ .fresh := by simp [hpc]
  have hlive : (s.tx t).pc.live = true := by simp [hpc, Pc.live]
  have h := hi.mine t ht
  unfold acquire
  split
  · next hfree => exact take_inv hi hpc hfree.1
  · split
    · next hown =>
        exact hi.local ht (acquired_tid _ k).1 (acquired_tid _ k).2 (h.acquired hlive hown)
    · exact hi.local ht (failed_tid _ k n).1 (failed_tid _ k n).2 (h.failed hlive k n)

theorem next_inv (hi : Inv m₀ m s) {c : Call} {q : Shared × Tx}
    (hnext : next t s.shared (s.tx t) c = some q) (hb : Bounded s (t, c) (s.put t q.1 q.2)) :
    ∃ m', Inv m₀ m' (s.put t q.1 q.2) := by
  have hgoto : ∀ p : Pc, (s.tx t).pc = .body → p.live = true →
      { s.tx t with pc := p }.Here s.shared.locks →
      Inv m₀ m (s.put t s.shared { s.tx t with pc := p }) := by
    intro p hpc hp hhere
    have ht : (s.tx t).pc ≠ .fresh := by simp [hpc]
    refine hi.local ht rfl ?_ ((hi.mine t ht).goto (by simp [hpc, Pc.live]) hp hhere)
    rintro rfl
    cases hp
  unfold next at hnext
  split at hnext <;> cases hnext
  · next hpc =>
      simp only [Bounded, hpc] at hb
      exact ⟨m, initThread_inv hi hpc hb⟩
  · next hpc => exact ⟨m, begin_inv hi hpc⟩
  · next a hpc => exact ⟨m, hgoto (.acquire (.read a) 0) hpc rfl trivial⟩
  · next a v hpc => exact ⟨m, hgoto (.acquire (.write a v) 0) hpc rfl trivial⟩
  · next hpc => exact validateFrom_inv hi (by simp [hpc, Pc.live]) _
  · next hpc => exact ⟨m, restart_inv hi (by simp [hpc, Pc.live])⟩
  · next k n hpc => exact ⟨m, acquire_inv hi hpc false⟩
  · next k n hpc => exact ⟨m, acquire_inv hi hpc true⟩
  · next a hpc => exact ⟨m, load_inv hi hpc⟩
  · next a v hpc => exact ⟨m, loadOld_inv hi hpc⟩
  · next a v hpc => exact ⟨m, store_inv hi hpc⟩
  · next a rest hpc =>
      split
      · exact ⟨m, restart_inv hi (by simp [hpc, Pc.live])⟩
      · exact validateFrom_inv hi (by simp [hpc, Pc.live]) rest
  · next u rest hpc => exact ⟨m, undo_inv hi hpc⟩
  · next a rest hpc => exact ⟨m, release_inv hi hpc⟩

theorem inv_run (hr : Run step Bounded (init T m₀) s) : ∃ m, Inv m₀ m s := by
  refine hr.induction_on (P := fun s => ∃ m, Inv m₀ m s) ⟨m₀, ?_⟩ fun s₁ l s₂ _ h hs hb => ?_
  · exact
      { serial := rfl
        tid := fun _ h => absurd rfl h
        inj := fun _ _ h => absurd rfl h
        next := Nat.one_pos
        mine := fun _ h => absurd rfl h
        owner := fun _ h => absurd rfl h
        free := fun _ _ => rfl }
  · obtain ⟨m, hi⟩ := h
    obtain ⟨σ, x, hnext, rfl⟩ := Threads.step_eq_some hs
    exact next_inv hi hnext hb

end Run

/-- While the counter of thread identifiers does not wrap: a holder of a lock is the identifier of
exactly one thread, which is in a transaction and has the lock once on its list; a transaction
holds the locks of all it has read and written until it begins to release them; and the
transactions that have not restarted are a serial run in the order in which they do so, which
leads to memory wherever the lock is free. -/
theorem two_phase {T : Type} [DecidableEq T] {s : Threads Shared Tx T} (m₀ : Addr → Word)
    (hr : Run step Bounded (init T m₀) s) :
    (∀ ℓ, s.shared.locks ℓ ≠ 0 → ∃ t, (s.tx t).tid = s.shared.locks ℓ ∧ (s.tx t).pc ≠ .fresh ∧
      (s.tx t).pc ≠ .out ∧ ((s.tx t).locksHeld.map lockIdx).count ℓ = 1 ∧
      ∀ u, (s.tx u).pc ≠ .fresh → (s.tx u).tid = s.shared.locks ℓ → u = t) ∧
    (∀ t, (s.tx t).pc.growing = true → ∀ a, Touches (s.tx t).ops a →
      s.shared.locks (lockIdx a) = (s.tx t).tid) ∧
    ∃ m, SerialRun m₀ s.shared.log m ∧
      ∀ a, s.shared.locks (lockIdx a) = 0 → s.shared.mem a = m a := by
  obtain ⟨m, hi⟩ := inv_run hr
  refine ⟨fun ℓ hℓ => ?_, fun t ht => ?_, m, hi.serial, hi.free⟩
  · obtain ⟨t, ht, hown⟩ := hi.owner ℓ hℓ
    have h := hi.mine t ht
    have hheld := (h.owned ℓ).1 hown
    refine ⟨t, hown.symm, ht, ?_, ?_, fun u hu h => hi.inj u t hu ht (h.trans hown)⟩
    · intro hpc
      simp [Tx.held, hpc] at hheld
    · exact List.count_eq_one_of_mem h.nodup ((h.suffix.sublist.map lockIdx).subset hheld)
  · have hpc : (s.tx t).pc ≠ .fresh := by
      intro h
      simp [h, Pc.growing] at ht
    exact (hi.mine t hpc).touched ht

/-- A transaction that writes a cell waits for a lock in vain and restarts; the one that holds it
commits. -/
theorem two_phase_two : ∃ s : Threads Shared Tx (Fin 2),
    Run step Bounded (init (Fin 2) fun _ => 0) s ∧ s.shared.log = [[.write 16 1]] ∧
      s.shared.mem 16 = 1 ∧ s.shared.mem 32 = 0 ∧
      ∃ m, SerialRun (fun _ => 0) s.shared.log m := by
  obtain ⟨s, hr, hlog, hmem, hmem'⟩ : ∃ s : Threads Shared Tx (Fin 2),
      Run step Bounded (init (Fin 2) fun _ => 0) s ∧ s.shared.log = [[.write 16 1]] ∧
        s.shared.mem 16 = 1 ∧ s.shared.mem 32 = 0 :=
    exists_run_of_exec (.flatten [Threads.calls 0 [.initThread, .begin, .write 16 1, .weak, .tau,
        .tau, .tau],
      Threads.calls 1 [.initThread, .begin, .write 32 5, .tau, .tau, .tau, .abort, .tau, .tau],
      Threads.calls 0 [.commit, .tau]]) (by decide +kernel)
  obtain ⟨-, -, m, hserial, -⟩ := two_phase _ hr
  exact ⟨s, hr, hlog, hmem, hmem', m, hserial⟩

theorem run_initThread (m₀ : Addr → Word) (n : ℕ) : ∃ s : Threads Shared Tx ℕ,
    Run step anyStep (init ℕ m₀) s ∧ s.shared.locks = (fun _ => 0) ∧
      s.shared.nextTid = BitVec.ofNat 64 (n + 1) ∧
      (∀ i < n, s.tx i = { pc := .out, tid := BitVec.ofNat 64 (i + 1) }) ∧
      ∀ i, n ≤ i → s.tx i = {} := by
  induction n with
  | zero => exact ⟨_, .refl, rfl, rfl, fun i hi => absurd hi (Nat.not_lt_zero i), fun _ _ => rfl⟩
  | succ n ih =>
      obtain ⟨s, hr, hlocks, hnext, hdone, hrest⟩ := ih
      refine ⟨s.put n { s.shared with nextTid := s.shared.nextTid + 1 }
        { pc := .out, tid := s.shared.nextTid }, .tail (n, .initThread) hr ?_ trivial, hlocks, ?_,
        fun i hi => ?_, fun i hi => ?_⟩
      · simp [step, Threads.step, next, hrest n le_rfl]
      · rw [Threads.put_shared, hnext, show (1 : Word) = BitVec.ofNat 64 1 from rfl,
          ← BitVec.ofNat_add]
      · by_cases hin : i = n
        · rw [hin, Threads.put_tx_self, hnext]
        · rw [Threads.put_tx_of_ne hin]
          exact hdone i (by omega)
      · rw [Threads.put_tx_of_ne (by omega)]
        exact hrest i (by omega)

/-- The counter wraps: thread `2 ^ 64` gets the identifier of thread 0, and is taken for the
holder of a lock that thread 0 has acquired. -/
theorem shared_tid_after_wrap : ∃ (s : Threads Shared Tx ℕ) (ℓ : LockIdx) (t u : ℕ),
    Run step anyStep (init ℕ fun _ => 0) s ∧ t ≠ u ∧ s.shared.locks ℓ ≠ 0 ∧
      (s.tx t).tid = s.shared.locks ℓ ∧ (s.tx u).tid = s.shared.locks ℓ ∧
      (s.tx t).pc = .load 0 ∧ (s.tx u).pc = .out := by
  obtain ⟨s, hr, hlocks, -, hdone, -⟩ := run_initThread (fun _ => 0) (2 ^ 64 + 1)
  have h₀ := hdone 0 (by omega)
  have hlast := hdone (2 ^ 64) (by omega)
  have hs : ∃ s', exec step anyStep s (Threads.calls 0 [.begin, .read 0, .tau]) = some s' ∧
      s'.shared.locks 0 = 1 ∧ (s'.tx 0).tid = 1 ∧ (s'.tx 0).pc = .load 0 ∧
      s'.tx (2 ^ 64) = s.tx (2 ^ 64) := by
    have hcas : acquire s.shared { pc := .acquire (.read 0) 0, tid := 1 } false (.read 0) 0 =
        ({ s.shared with locks := Function.update s.shared.locks (lockIdx 0) 1 },
          { pc := .load 0, tid := 1, locksHeld := [0] }) :=
      if_pos ⟨by rw [hlocks], rfl⟩
    rw [Threads.calls, List.map_cons, List.map_cons, List.map_cons, List.map_nil, step,
      Threads.exec_cons_of_next (by rw [h₀]; rfl),
      Threads.exec_put (by rfl), Threads.exec_put (by exact congrArg some hcas), exec_nil]
    refine ⟨_, rfl, ?_, ?_, ?_, ?_⟩
    · rw [Threads.put_shared]
      exact Function.update_self (lockIdx 0) (1 : Word) s.shared.locks
    · rw [Threads.put_tx_self]
    · rw [Threads.put_tx_self]
    · rw [Threads.put_tx_of_ne (by decide)]
  obtain ⟨s', hexec, hlock, htid, hpc, hsame⟩ := hs
  refine ⟨s', 0, 0, 2 ^ 64, hr.trans (run_of_exec hexec), by decide, by rw [hlock]; decide,
    htid.trans hlock.symm, ?_, hpc, ?_⟩
  · rw [hsame, hlast, hlock]
    rfl
  · rw [hsame, hlast]

end GaccO
