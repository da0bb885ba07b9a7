import Mathlib.Data.List.TakeWhile
import ClangTM.Rust.TL2.Invariant

/-!
# The steps of the Rust TL2 backend keep the invariant

`Undisturbed` is the condition under which they do: a transaction without writes commits
only while the locks of its reads are free at the versions noted, and no version wraps.
-/

namespace Rust.TL2

open Serial Transition

def commitsReadOnly (x : Tx) (c : TmCall Addr) : Bool :=
  x.pc = .body && c = .commit && x.writeSet = []

def bumped : Pc → List ℕ
  | .unlockStore ver _ _ => [ver.toNat]
  | _ => []

/-- A transaction without writes commits only while the locks of its reads are free at the
versions noted, and no version wraps. -/
def Undisturbed {T : Type} (s : Threads (Shared T) Tx T) (l : T × TmCall Addr)
    (_ : Threads (Shared T) Tx T) : Prop :=
  (commitsReadOnly (s.tx l.1) l.2 = true → ∀ r ∈ (s.tx l.1).readSet,
    isLocked (s.shared.locks (lockIndex r.1)) = false ∧
      version (s.shared.locks (lockIndex r.1)) = r.2) ∧
  ∀ n ∈ bumped (s.tx l.1).pc, n + 1 < 2 ^ 56

instance {T : Type} (s : Threads (Shared T) Tx T) (l : T × TmCall Addr)
    (s' : Threads (Shared T) Tx T) : Decidable (Undisturbed s l s') :=
  @instDecidableAnd _ _ (@instDecidableForall _ _ _ (List.decidableBAll _ _))
    (List.decidableBAll _ _)

section Recorded

variable {T : Type} {m₀ : Addr → Word} {σ σ' : Shared T} {x : Tx}

theorem TxInv.move (h : TxInv m₀ σ x) (he : Evolves σ σ') {p : Pc}
    (hhere : Here m₀ σ' { x with pc := p }) : TxInv m₀ σ' { x with pc := p } :=
  ⟨⟨h.recorded.sets, h.recorded.listed⟩, fun r hr => (h.fresh r hr).evolves he, hhere⟩

theorem TxInv.blank (hops : x.ops = []) (hreads : x.reads = []) (hwrites : x.writeSet = [])
    (hhere : Here m₀ σ x) : TxInv m₀ σ x where
  recorded := by
    refine ⟨?_, by simp [hreads]⟩
    rw [hops, hreads, hwrites]
    exact .nil
  fresh := by simp [hreads]
  here := hhere

theorem Recorded.read (h : Recorded x) {a : Addr} {ver v : Word} (p : Pc)
    (hv : x.writeSet.lookup a = none) :
    Recorded { x with
      pc := p
      readSet := x.readSet ++ [(a, ver)]
      ops := .read a v :: x.ops
      reads := ⟨a, ver, v⟩ :: x.reads } where
  sets := h.sets.readFront hv
  listed r hr := by
    rcases List.mem_cons.1 hr with rfl | hr
    · exact List.mem_append_right _ List.mem_cons_self
    · exact List.mem_append_left _ (h.listed r hr)

theorem Recorded.legal (h : Recorded x) {m : Addr → Word} (hm : ∀ r ∈ x.reads, m r.addr = r.val) :
    Legal m x.ops :=
  h.sets.legal (List.forall_mem_map.2 hm)

end Recorded

section Shared

variable {T : Type} {m₀ : Addr → Word} {σ σ' σ'' : Shared T} {x : Tx} {p q : Pc}
  {locked : List LockIdx} {rest : List (Addr × Word)}

theorem Evolves.trans (h : Evolves σ σ') (h' : Evolves σ' σ'') : Evolves σ σ'' where
  le ℓ := (h.le ℓ).trans (h'.le ℓ)
  same a hfree hver := by
    have hver' : version (σ''.locks (lockIndex a)) = version (σ'.locks (lockIndex a)) := by
      refine BitVec.eq_of_toNat_eq (le_antisymm ?_ (h'.le _))
      rw [hver]
      exact h.le _
    obtain ⟨hfree', hmem'⟩ := h'.same a hfree hver'
    obtain ⟨hfree, hmem⟩ := h.same a hfree' (hver'.symm.trans hver)
    exact ⟨hfree, hmem'.trans hmem⟩

/-- The holder moves on without a change to what it has taken or has to write. -/
theorem SharedInv.congr (h : SharedInv m₀ σ p) (htaken : q.taken.Perm p.taken)
    (hpending : q.pending = p.pending) (hdeciding : q.deciding = p.deciding) :
    SharedInv m₀ σ q :=
  { h with
    locked := fun ℓ => (h.locked ℓ).trans htaken.mem_iff.symm
    nodup := htaken.nodup_iff.2 h.nodup
    pending := fun a ha => htaken.mem_iff.2 (h.pending a (hpending ▸ ha))
    mem := fun a ha => h.mem a (hpending ▸ ha)
    turn := by rw [hdeciding, h.turn] }

structure Inside (m₀ : Addr → Word) (σ σ' : Shared T) (x' : Tx) : Prop where
  holding : x'.pc.holding = true
  holder : σ'.holder = σ.holder
  lock : σ'.commitLock = σ.commitLock
  evolves : Evolves σ σ'
  shared : SharedInv m₀ σ' x'.pc
  tx : TxInv m₀ σ' x'

theorem Inside.of_same (hp : p.holding = true) (hsh : SharedInv m₀ σ p) (h : TxInv m₀ σ x)
    (hhere : Here m₀ σ { x with pc := p }) : Inside m₀ σ σ { x with pc := p } :=
  ⟨hp, rfl, rfl, .of_eq rfl rfl, hsh, h.move (.of_eq rfl rfl) hhere⟩

theorem allLocked_inside (hsh : SharedInv m₀ σ p) (htaken : p.taken = locked)
    (hpending : p.pending = []) (hdeciding : p.deciding = true) (hx : TxInv m₀ σ x)
    (hcur : Current σ x) (hcov : Covered x locked []) :
    Inside m₀ σ (allLocked σ x locked).1 (allLocked σ x locked).2 := by
  have hturn : σ.turn = σ.sure + 1 := by rw [hsh.turn, if_pos hdeciding]
  have hnone : σ.log σ.turn = none := hsh.open_ _ (by omega)
  have hmem : ∀ a, σ.mem a = memAt m₀ σ.log σ.sure a := fun a => hsh.mem a (by simp [hpending])
  have hold : ∀ n, n ≤ σ.sure → memAt m₀ (enter σ.log σ.turn x.ops) n = memAt m₀ σ.log n :=
    fun n hn => memAt_enter_of_lt _ (by omega)
  have he : Evolves σ (allLocked σ x locked).1 := .of_eq rfl rfl
  refine ⟨rfl, rfl, rfl, he, ?_, ?_⟩
  · refine ⟨fun ℓ => ?_, ?_, fun a ha => ?_, fun a ha => ?_, rfl, fun n hn => ?_,
      fun n w hn hw => ?_, fun r hr => ?_⟩
    · rw [← htaken] at *
      exact hsh.locked ℓ
    · rw [← htaken] at *
      exact hsh.nodup
    · obtain ⟨w, hw, rfl⟩ := List.mem_map.1 ha
      exact (hcov w hw).resolve_right (List.not_mem_nil)
    · have hunwritten : lastWrite x.ops a = none := by
        rw [hx.recorded.sets.writes]
        exact List.lookup_eq_none_iff.2 fun w hw =>
          bne_iff_ne.2 fun heq => ha (heq ▸ List.mem_map_of_mem hw)
      show σ.mem a = memAt m₀ (enter σ.log σ.turn x.ops) σ.turn a
      rw [memAt_enter_of_unwritten _ hnone hunwritten, hturn,
        memAt_succ_of_none (hturn ▸ hnone), hmem]
    · have hn : σ.turn < n := hn
      show enter σ.log σ.turn x.ops n = none
      rw [enter_of_ne _ hn.ne', hsh.open_ n (by omega)]
    · have hw : enter σ.log σ.turn x.ops n = some w := hw
      show Legal (memAt m₀ (enter σ.log σ.turn x.ops) (n - 1)) w
      by_cases hnt : n = σ.turn
      · subst hnt
        rw [enter_self] at hw
        obtain rfl := Option.some.inj hw
        rw [hold _ (by omega), show σ.turn - 1 = σ.sure by omega]
        exact hx.recorded.legal fun r hr => (hmem _).symm.trans (hcur r hr)
      · rw [enter_of_ne _ hnt] at hw
        have hle : n ≤ σ.sure := by
          by_contra hlt
          rw [hsh.open_ n (by omega)] at hw
          cases hw
        rw [hold _ (by omega)]
        exact hsh.legal n w hn hw
    · obtain ⟨hle, hlegal, hro⟩ := hsh.ro r hr
      refine ⟨hle.trans (by show σ.sure ≤ σ.turn; omega), ?_, hro⟩
      show Legal (memAt m₀ (enter σ.log σ.turn x.ops) r.1) r.2
      rw [hold _ hle]
      exact hlegal
  · refine hx.move (p := .writeBack x.writeSet locked) he
      ⟨hx.recorded.sets.nodup, fun w hw => ?_⟩
    have hlast : lastWrite x.ops w.1 = some w.2 :=
      (hx.recorded.sets.writes _).trans (lookup_of_mem hx.recorded.sets.nodup hw)
    show memAt m₀ (enter σ.log σ.turn x.ops) σ.turn w.1 = w.2
    rw [memAt_pred_of_some (enter_self _ _ _) (by omega), final_of_some hlast]

theorem lockFrom_inside (rest : List Addr) (hsh : SharedInv m₀ σ p) (htaken : p.taken = locked)
    (hpending : p.pending = []) (hdeciding : p.deciding = true) (hx : TxInv m₀ σ x)
    (hcur : Current σ x) (hcov : Covered x locked rest) :
    Inside m₀ σ (lockFrom σ x rest locked).1 (lockFrom σ x rest locked).2 := by
  have hskip : ∀ a ∈ rest, lockIndex a ∈ locked ∨
      a ∈ rest.dropWhile fun a => lockIndex a ∈ locked := by
    intro a ha
    rw [← List.takeWhile_append_dropWhile (p := fun a => lockIndex a ∈ locked) (l := rest)] at ha
    rcases List.mem_append.1 ha with ha | ha
    · exact .inl (by simpa using List.mem_takeWhile_imp ha)
    · exact .inr ha
  have hcov' : Covered x locked (rest.dropWhile fun a => lockIndex a ∈ locked) := fun w hw =>
    (hcov w hw).elim .inl (hskip w.1)
  unfold lockFrom
  cases hdrop : rest.dropWhile fun a => lockIndex a ∈ locked with
  | nil =>
      rw [hdrop] at hcov'
      exact allLocked_inside hsh htaken hpending hdeciding hx hcur hcov'
  | cons a rest' =>
      rw [hdrop] at hcov'
      refine .of_same rfl (hsh.congr ?_ hpending.symm hdeciding.symm) hx ⟨hcur, hcov'⟩
      rw [htaken]
      exact .refl _

theorem mem_addrs (x : Tx) {w : Addr × Word} (hw : w ∈ x.writeSet) : w.1 ∈ x.addrs :=
  (List.mem_insertionSort _).2 (List.mem_map_of_mem hw)

theorem validateFrom_inside (hsh : SharedInv m₀ σ (.validate rest)) (hx : TxInv m₀ σ x)
    (hval : ∀ r ∈ x.reads, (r.addr, r.ver) ∈ rest ∨ σ.mem r.addr = r.val) :
    Inside m₀ σ (validateFrom σ x rest).1 (validateFrom σ x rest).2 := by
  cases rest with
  | nil =>
      refine lockFrom_inside _ hsh rfl rfl rfl hx (fun r hr => ?_) fun w hw => .inr (mem_addrs x hw)
      exact (hval r hr).resolve_left List.not_mem_nil
  | cons r rest => exact .of_same rfl hsh hx hval

theorem SharedInv.take {a : Addr} {rest : List Addr} {cur : Word}
    (h : SharedInv m₀ σ (.lockCas cur a rest locked)) (hcur : σ.locks (lockIndex a) = cur)
    (hfree : isLocked cur = false) :
    SharedInv m₀ { σ with locks := Function.update σ.locks (lockIndex a) (Rust.locked cur) }
      (.lock a rest (locked ++ [lockIndex a])) := by
  have hnot : lockIndex a ∉ locked := by
    intro hmem
    have hlocked := (h.locked _).2 hmem
    rw [hcur, hfree] at hlocked
    cases hlocked
  refine { h with locked := fun ℓ => ?_, nodup := ?_, pending := by simp [Pc.pending] }
  · by_cases hℓ : ℓ = lockIndex a
    · subst hℓ
      simp [Pc.taken]
    · simpa [Pc.taken, Function.update_of_ne hℓ, hℓ] using h.locked ℓ
  · exact List.nodup_append.2 ⟨h.nodup, List.nodup_singleton _, fun b hb c hc hbc =>
      hnot (List.mem_singleton.1 hc ▸ hbc ▸ hb)⟩

theorem Evolves.take {ℓ : LockIdx} {cur : Word} (hcur : σ.locks ℓ = cur) :
    Evolves σ { σ with locks := Function.update σ.locks ℓ (Rust.locked cur) } where
  le k := by
    by_cases hk : k = ℓ
    · subst hk
      simp [hcur]
    · simp [Function.update_of_ne hk]
  same a hfree _ := by
    by_cases hk : lockIndex a = ℓ
    · simp [hk] at hfree
    · exact ⟨by simpa [Function.update_of_ne hk] using hfree, rfl⟩

theorem SharedInv.store {a : Addr} {v : Word} (h : SharedInv m₀ σ (.writeBack rest locked))
    (hv : memAt m₀ σ.log σ.sure a = v) :
    SharedInv m₀ { σ with mem := Function.update σ.mem a v }
      (.writeBack (rest.filter fun e => e.1 ≠ a) locked) := by
  refine { h with pending := fun b hb => ?_, mem := fun b hb => ?_ }
  · obtain ⟨w, hw, rfl⟩ := List.mem_map.1 hb
    exact h.pending _ (List.mem_map_of_mem (List.mem_of_mem_filter hw))
  · by_cases hba : b = a
    · subst hba
      simpa using hv.symm
    · refine (Function.update_of_ne hba _ _).trans (h.mem b fun hmem => hb ?_)
      obtain ⟨w, hw, rfl⟩ := List.mem_map.1 hmem
      exact List.mem_map_of_mem (List.mem_filter.2 ⟨hw, by simpa using hba⟩)

theorem Evolves.store {a : Addr} {v : Word} (h : SharedInv m₀ σ (.writeBack rest locked))
    (ha : a ∈ rest.map Prod.fst) : Evolves σ { σ with mem := Function.update σ.mem a v } where
  le _ := le_rfl
  same b hfree _ := by
    refine ⟨hfree, Function.update_of_ne (fun hba => ?_) _ _⟩
    subst hba
    have hlocked := (h.locked _).2 (h.pending _ ha)
    rw [show isLocked (σ.locks (lockIndex b)) = false from hfree] at hlocked
    cases hlocked

theorem SharedInv.giveBack {ver : Word} {idx : LockIdx} {rest : List LockIdx}
    (h : SharedInv m₀ σ (.unlockStore ver idx rest)) :
    SharedInv m₀ { σ with locks := Function.update σ.locks idx (unlockedTo (ver + 1)) }
      (.unlock rest) := by
  obtain ⟨hnot, hnodup⟩ := List.nodup_cons.1 h.nodup
  refine { h with locked := fun ℓ => ?_, nodup := hnodup, pending := by simp [Pc.pending] }
  by_cases hℓ : ℓ = idx
  · subst hℓ
    simpa [Pc.taken] using hnot
  · simpa [Pc.taken, Function.update_of_ne hℓ, hℓ] using h.locked ℓ

theorem Evolves.giveBack {ver : Word} {idx : LockIdx} (hver : version (σ.locks idx) = ver)
    (hwrap : ver.toNat + 1 < 2 ^ 56) :
    Evolves σ { σ with locks := Function.update σ.locks idx (unlockedTo (ver + 1)) } := by
  have hnew : (version (unlockedTo (ver + 1))).toNat = ver.toNat + 1 := by
    rw [toNat_version_unlockedTo, BitVec.toNat_add]
    have hone : (1 : Word).toNat = 1 := rfl
    omega
  refine ⟨fun ℓ => ?_, fun a hfree hsame => ?_⟩
  · dsimp only
    by_cases hℓ : ℓ = idx
    · subst hℓ
      rw [Function.update_self, hnew, hver]
      omega
    · rw [Function.update_of_ne hℓ]
  · dsimp only at hfree hsame
    by_cases hℓ : lockIndex a = idx
    · subst hℓ
      rw [Function.update_self, hver] at hsame
      have := congrArg BitVec.toNat hsame
      omega
    · rw [Function.update_of_ne hℓ] at hfree
      exact ⟨hfree, rfl⟩

theorem SharedInv.fail (h : SharedInv m₀ σ .giveUp) :
    SharedInv (T := T) m₀ { σ with commitLock := 0, holder := none, sure := σ.turn } .out := by
  have hturn : σ.turn = σ.sure + 1 := h.turn
  have hle : σ.sure ≤ σ.turn := by omega
  have hnone : σ.log (σ.sure + 1) = none := h.open_ _ (Nat.lt_succ_self _)
  refine { h with
    mem := fun a ha => ?_, turn := rfl, open_ := fun n hn => h.open_ n (hle.trans_lt hn)
    ro := fun r hr => ⟨(h.ro r hr).1.trans hle, (h.ro r hr).2⟩ }
  show σ.mem a = memAt m₀ σ.log σ.turn a
  rw [hturn, memAt_succ_of_none hnone]
  exact h.mem a ha

theorem SharedInv.readOnly (h : SharedInv m₀ σ p) (hx : TxInv m₀ σ x) (hwrites : x.writeSet = [])
    (hfree : ∀ r ∈ x.readSet, isLocked (σ.locks (lockIndex r.1)) = false ∧
      version (σ.locks (lockIndex r.1)) = r.2) :
    SharedInv m₀ { σ with ro := (σ.sure, x.ops) :: σ.ro } p := by
  refine { h with ro := List.forall_mem_cons.2 ⟨⟨le_rfl, ?_, fun a => ?_⟩, h.ro⟩ }
  · refine hx.recorded.legal fun r hr => ?_
    obtain ⟨hunlocked, hver⟩ := hfree _ (hx.recorded.listed r hr)
    have hsettled : r.addr ∉ p.pending := by
      intro hmem
      rw [(h.locked _).2 (h.pending _ hmem)] at hunlocked
      cases hunlocked
    exact (h.mem _ hsettled).symm.trans ((hx.fresh r hr).value hunlocked hver)
  · show lastWrite x.ops a = none
    rw [hx.recorded.sets.writes, hwrites]
    rfl

end Shared

section Next

variable {T : Type} [DecidableEq T] {m₀ : Addr → Word} {s : Threads (Shared T) Tx T} {t : T}
  (h : Inv m₀ s)
include h

theorem Inside.good {σ' : Shared T} {x' : Tx} {p : Pc} (hi : Inside m₀ s.shared σ' x')
    (hpc : (s.tx t).pc = p) (hp : p.holding = true) : Good m₀ s t σ' x' :=
  good_inside h (hpc ▸ hp) hi.holding hi.holder hi.lock hi.evolves hi.shared hi.tx

omit [DecidableEq T] in
theorem sharedInv {p : Pc} (hpc : (s.tx t).pc = p) (hp : p.holding = true) :
    SharedInv m₀ s.shared p := by
  rw [← hpc, ← work_eq h (hpc ▸ hp)]
  exact h.shared

omit [DecidableEq T] in
theorem hereAt {p : Pc} (hpc : (s.tx t).pc = p) : Here m₀ s.shared { s.tx t with pc := p } := by
  subst hpc
  exact (h.tx t).here

theorem good_move {p q : Pc} (hpc : (s.tx t).pc = p) (hp : p.holding = false)
    (hq : q.holding = false) (hhere : Here m₀ s.shared { s.tx t with pc := q }) :
    Good m₀ s t s.shared { s.tx t with pc := q } :=
  good_local h (hpc ▸ hp) hq ((h.tx t).move (.of_eq rfl rfl) hhere)

/-- The holder moves on, and the shared state stays. -/
theorem inside_move {p q : Pc} (hpc : (s.tx t).pc = p) (hp : p.holding = true)
    (hq : q.holding = true) (htaken : q.taken = p.taken) (hpending : q.pending = p.pending)
    (hdeciding : q.deciding = p.deciding) (hhere : Here m₀ s.shared { s.tx t with pc := q }) :
    Good m₀ s t s.shared { s.tx t with pc := q } :=
  Inside.good h (.of_same hq ((sharedInv h hpc hp).congr (.of_eq htaken) hpending hdeciding)
    (h.tx t) hhere) hpc hp

theorem good_stay : Good m₀ s t s.shared (s.tx t) := by
  cases hpc : (s.tx t).pc.holding with
  | false => exact good_local h hpc hpc (h.tx t)
  | true =>
      exact good_inside h hpc hpc rfl rfl (.of_eq rfl rfl) (sharedInv h rfl hpc) (h.tx t)

theorem good_blank {x' : Tx} {p : Pc} (hpc : (s.tx t).pc = p) (hp : p.holding = false)
    (hpc' : x'.pc.holding = false) (hops : x'.ops = []) (hreads : x'.reads = [])
    (hwrites : x'.writeSet = []) (hhere : Here m₀ s.shared x') : Good m₀ s t s.shared x' :=
  good_local h (hpc ▸ hp) hpc' (.blank hops hreads hwrites hhere)

theorem readWord_good (hpc : (s.tx t).pc = .body) (a : Addr) :
    Good m₀ s t s.shared ((s.tx t).readWord a) := by
  unfold Tx.readWord
  cases hv : (s.tx t).writeSet.lookup a with
  | none => exact good_move h hpc rfl rfl hv
  | some v =>
      refine good_local h (by rw [hpc]; rfl) (by rw [hpc]; rfl)
        ⟨⟨(h.tx t).recorded.sets.readOwn hv, (h.tx t).recorded.listed⟩, (h.tx t).fresh, ?_⟩
      show Here m₀ s.shared { s.tx t with ops := .read a v :: (s.tx t).ops }
      unfold Here
      rw [hpc]
      trivial

theorem writeWord_good (hpc : (s.tx t).pc = .body) (a : Addr) (v : Word) :
    Good m₀ s t s.shared ((s.tx t).writeWord a v) := by
  have hpc' : ((s.tx t).writeWord a v).pc = .body := hpc
  refine good_local h (by rw [hpc]; rfl) (by rw [hpc']; rfl)
    ⟨⟨(h.tx t).recorded.sets.write a v, (h.tx t).recorded.listed⟩, (h.tx t).fresh, ?_⟩
  unfold Here
  rw [hpc']
  trivial

theorem readAgain_good {a : Addr} {ver val : Word} (hpc : (s.tx t).pc = .readAgain a ver val) :
    Good m₀ s t s.shared ((s.tx t).readAgain a ver val (s.shared.locks (lockIndex a))) := by
  obtain ⟨hv, hfresh⟩ := hereAt h hpc
  unfold Tx.readAgain
  split
  · split
    · exact good_blank h hpc rfl rfl rfl rfl rfl trivial
    · refine good_local h (hpc ▸ rfl) rfl ⟨(h.tx t).recorded.read .body hv, fun r hr => ?_, trivial⟩
      rcases List.mem_cons.1 hr with rfl | hr
      · exact hfresh
      · exact (h.tx t).fresh r hr
  · exact good_move h hpc rfl rfl hv

theorem commitCas_good (hpc : (s.tx t).pc = .commitCas) :
    Good m₀ s t (commitCas t s.shared (s.tx t)).1 (commitCas t s.shared (s.tx t)).2 := by
  unfold commitCas
  split
  · next hfree =>
      have hwork : work s = .out := by rw [work, h.free.1 hfree]
      have hsh : SharedInv m₀
          { s.shared with commitLock := 1, holder := some t, turn := s.shared.turn + 1 }
          (.validate (s.tx t).readSet) := by
        have hold := h.shared
        rw [hwork] at hold
        have hturn : s.shared.turn = s.shared.sure := hold.turn
        exact { hold with turn := congrArg (· + 1) hturn }
      have hi := validateFrom_inside hsh ((h.tx t).of_eq rfl rfl rfl rfl)
        fun r hr => .inl ((h.tx t).recorded.listed r hr)
      have hone : (1 : Word) ≠ 0 := by decide
      exact good_acquire h hfree hi.holding hi.holder (by rw [hi.lock]; exact hone)
        ⟨hi.evolves.le, hi.evolves.same⟩ hi.shared hi.tx
  · exact good_move h hpc rfl rfl trivial

theorem validate_good {r : Addr × Word} {rest : List (Addr × Word)}
    (hpc : (s.tx t).pc = .validate (r :: rest)) :
    Good m₀ s t
      (if version (s.shared.locks (lockIndex r.1)) = r.2 then validateFrom s.shared (s.tx t) rest
        else (s.shared, { s.tx t with pc := .giveUp })).1
      (if version (s.shared.locks (lockIndex r.1)) = r.2 then validateFrom s.shared (s.tx t) rest
        else (s.shared, { s.tx t with pc := .giveUp })).2 := by
  have hsh := sharedInv h hpc rfl
  have hval : ∀ q ∈ (s.tx t).reads, (q.addr, q.ver) ∈ r :: rest ∨ s.shared.mem q.addr = q.val :=
    hereAt h hpc
  split
  · next hver =>
      refine Inside.good h (validateFrom_inside (hsh.congr (.refl _) rfl rfl) (h.tx t) ?_) hpc rfl
      intro q hq
      rcases hval q hq with hmem | hmem
      · rcases List.mem_cons.1 hmem with heq | hmem
        · -- nobody has a lock here, and the version is the one noted
          subst heq
          have hfree : isLocked (s.shared.locks (lockIndex q.addr)) = false := by
            rw [Bool.eq_false_iff, ne_eq, hsh.locked]
            exact List.not_mem_nil
          exact .inr (((h.tx t).fresh q hq).value hfree hver)
        · exact .inl hmem
      · exact .inr hmem
  · exact inside_move h hpc rfl rfl rfl rfl rfl trivial

theorem lockCas_good {cur : Word} {a : Addr} {rest : List Addr} {locked : List LockIdx}
    (hpc : (s.tx t).pc = .lockCas cur a rest locked) :
    Good m₀ s t (lockCas s.shared (s.tx t) cur a rest locked).1
      (lockCas s.shared (s.tx t) cur a rest locked).2 := by
  have hsh := sharedInv h hpc rfl
  obtain ⟨hcur, hcov, hfree⟩ := hereAt h hpc
  unfold lockCas
  split
  · next heq =>
      have he := Evolves.take heq
      have htake := hsh.take heq hfree
      have hx : TxInv m₀
          { s.shared with
            locks := Function.update s.shared.locks (lockIndex a) (Rust.locked cur) }
          { s.tx t with pc := .advance } := (h.tx t).move he trivial
      have hi := lockFrom_inside (x := s.tx t) rest htake rfl rfl rfl
        ⟨(h.tx t).recorded, hx.fresh, ?_⟩ hcur ?_
      · exact Inside.good h ⟨hi.holding, hi.holder, hi.lock, he.trans hi.evolves, hi.shared,
            hi.tx⟩ hpc rfl
      · unfold Here
        rw [hpc]
        exact ⟨hcur, hcov, hfree⟩
      · intro w hw
        rcases hcov w hw with hmem | hmem
        · exact .inl (List.mem_append_left _ hmem)
        · rcases List.mem_cons.1 hmem with heq | hmem
          · exact .inl (List.mem_append_right _ (by rw [heq]; exact List.mem_cons_self))
          · exact .inr hmem
  · exact inside_move h hpc rfl rfl rfl rfl rfl ⟨hcur, hcov⟩

omit [DecidableEq T] h in
theorem unlockFrom_inside {σ σ' : Shared T} {x : Tx} {rest : List LockIdx}
    (hholder : σ'.holder = σ.holder)
    (hlock : σ'.commitLock = σ.commitLock) (he : Evolves σ σ')
        (hsh : SharedInv m₀ σ' (.unlock rest))
    (hx : TxInv m₀ σ x) : Inside m₀ σ σ' { x with pc := unlockFrom rest } := by
  unfold unlockFrom
  split
  · next hrest =>
      subst hrest
      exact ⟨rfl, hholder, hlock, he, hsh.congr (.refl _) rfl rfl, hx.move he trivial⟩
  · exact ⟨rfl, hholder, hlock, he, hsh, hx.move he trivial⟩

theorem writeBack_good {rest : List (Addr × Word)} {locked : List LockIdx} {a : Addr} {v : Word}
    (hpc : (s.tx t).pc = .writeBack rest locked) (hv : rest.lookup a = some v) :
    Good m₀ s t (writeBack s.shared (s.tx t) (a, v) rest locked).1
      (writeBack s.shared (s.tx t) (a, v) rest locked).2 := by
  have hsh := sharedInv h hpc rfl
  obtain ⟨hnodup, hval⟩ := hereAt h hpc
  have hmem := mem_of_lookup hv
  have hstore := hsh.store (hval _ hmem)
  have he : Evolves s.shared { s.shared with mem := Function.update s.shared.mem a v } :=
    .store hsh (List.mem_map_of_mem (f := Prod.fst) hmem)
  refine Inside.good h ?_ hpc rfl
  unfold writeBack
  dsimp only
  split
  · next hrest =>
      rw [hrest] at hstore
      exact unlockFrom_inside rfl rfl he (hstore.congr (List.reverse_perm _) rfl rfl) (h.tx t)
  · refine ⟨rfl, rfl, rfl, he, hstore, (h.tx t).move he ⟨?_, fun w hw => ?_⟩⟩
    · exact hnodup.sublist (List.filter_sublist.map _)
    · exact hval w (List.mem_of_mem_filter hw)

theorem unlockStore_good {ver : Word} {idx : LockIdx} {rest : List LockIdx}
    (hpc : (s.tx t).pc = .unlockStore ver idx rest) (hwrap : ver.toNat + 1 < 2 ^ 56) :
    Good m₀ s t
      { s.shared with locks := Function.update s.shared.locks idx (unlockedTo (ver + 1)) }
      { s.tx t with pc := unlockFrom rest } := by
  have hver : version (s.shared.locks idx) = ver := hereAt h hpc
  exact Inside.good h (unlockFrom_inside rfl rfl (.giveBack hver hwrap)
    (sharedInv h hpc rfl).giveBack (h.tx t)) hpc rfl

theorem commit_good (hpc : (s.tx t).pc = .body)
    (hfree : (s.tx t).writeSet = [] → ∀ r ∈ (s.tx t).readSet,
      isLocked (s.shared.locks (lockIndex r.1)) = false ∧
        version (s.shared.locks (lockIndex r.1)) = r.2) :
    Good m₀ s t
      (if (s.tx t).writeSet = [] then
          ({ s.shared with ro := (s.shared.sure, (s.tx t).ops) :: s.shared.ro }, Tx.finish
              (some true))
        else (s.shared, { s.tx t with pc := .commitLoad })).1
      (if (s.tx t).writeSet = [] then
          ({ s.shared with ro := (s.shared.sure, (s.tx t).ops) :: s.shared.ro }, Tx.finish
              (some true))
        else (s.shared, { s.tx t with pc := .commitLoad })).2 := by
  split
  · next hw =>
      exact good_outside h (hpc ▸ rfl) rfl (h.shared.readOnly (h.tx t) hw
        (hfree hw)) rfl rfl rfl rfl rfl rfl (.blank rfl rfl rfl trivial)
  · exact good_move h hpc rfl rfl trivial

theorem next_good {c : TmCall Addr} {q : Shared T × Tx}
    (hnext : next t s.shared (s.tx t) c = some q) {s' : Threads (Shared T) Tx T}
    (hb : Undisturbed s (t, c) s') : Good m₀ s t q.1 q.2 := by
  obtain ⟨hro, hwrap⟩ := hb
  unfold next at hnext
  cases hpc : (s.tx t).pc <;> rw [hpc] at hnext
  case validate rest =>
    cases rest with
    | nil => cases c <;> cases hnext
    | cons r rest =>
        cases c <;> cases hnext
        exact validate_good h hpc
  case unlock rest =>
    cases rest with
    | nil => cases c <;> cases hnext
    | cons idx rest =>
        cases c <;> cases hnext
        exact inside_move h hpc rfl rfl rfl rfl rfl rfl
  case writeBack rest locked =>
    cases c
    case write a v =>
      dsimp only at hnext
      split at hnext <;> cases hnext
      · next hv => exact writeBack_good h hpc hv
    all_goals cases hnext
  all_goals cases c <;> cases hnext
  case out.begin => exact good_move h hpc rfl rfl trivial
  case beginClock.tau => exact good_blank h hpc rfl rfl rfl rfl rfl trivial
  case body.read a => exact readWord_good h hpc a
  case body.write a v => exact writeWord_good h hpc a v
  case body.abort => exact good_blank h hpc rfl rfl rfl rfl rfl trivial
  case body.commit => exact commit_good h hpc fun hw => hro (by simp [commitsReadOnly, hpc, hw])
  case readLocked.tau a =>
    have hv := hereAt h hpc
    dsimp only
    split
    · exact good_stay h
    · exact good_move h hpc rfl rfl hv
  case readVersion.tau a => exact good_move h hpc rfl rfl ⟨hereAt h hpc, le_rfl⟩
  case readValue.tau a ver =>
    obtain ⟨hv, hle⟩ := hereAt h hpc
    exact good_move h hpc rfl rfl ⟨hv, hle, fun _ _ => rfl⟩
  case readAgain.tau a ver val => exact readAgain_good h hpc
  case commitLoad.tau =>
    dsimp only
    split
    · exact good_move h hpc rfl rfl trivial
    · exact good_stay h
  case commitCas.tau => exact commitCas_good h hpc
  case commitCas.weak => exact good_move h hpc rfl rfl trivial
  case giveUp.tau =>
    exact good_release h (hpc ▸ rfl) rfl rfl rfl (.of_eq rfl rfl) (sharedInv h hpc rfl).fail
      (.blank rfl rfl rfl trivial)
  case lock.tau a rest locked =>
    obtain ⟨hcur, hcov⟩ := hereAt h hpc
    dsimp only
    split
    · exact good_stay h
    · next hfree => exact inside_move h hpc rfl rfl rfl rfl rfl ⟨hcur, hcov, by simpa using hfree⟩
  case lockCas.tau cur a rest locked => exact lockCas_good h hpc
  case lockCas.weak cur a rest locked =>
    obtain ⟨hcur, hcov, -⟩ := hereAt h hpc
    exact inside_move h hpc rfl rfl rfl rfl rfl ⟨hcur, hcov⟩
  case unlockStore.tau ver idx rest =>
    exact unlockStore_good h hpc (hwrap ver.toNat (by simp [hpc, bumped]))
  case advance.tau =>
    have he : Evolves s.shared { s.shared with gClock := s.shared.gClock + 1 } := .of_eq rfl rfl
    refine Inside.good h ⟨rfl, rfl, rfl, he, ?_, (h.tx t).move he trivial⟩ hpc rfl
    exact { sharedInv h hpc rfl with }
  case release.tau =>
    refine good_release h (hpc ▸ rfl) rfl rfl rfl (.of_eq rfl rfl) ?_ (.blank rfl rfl rfl trivial)
    exact { sharedInv h hpc rfl with }

end Next

end Rust.TL2
