import ClangTM.Rust.LeftRight.Sessions

/-!
# What the copies and memory hold

`LEFT` is always the active copy. The writer that holds the lock has its writes in `RIGHT`,
on top of what `LEFT` has; each entry of its write set knows what it has covered, newest
first, so that undoing the entries one by one leads back to `LEFT`. Once `tm_commit` has been
called the writes are to be copied to `LEFT` and to be stored to memory.

`StageInv` says so for a set of cells without a byte in common: `S` gives the value that each
of them has for the committed transactions.
-/

namespace Rust.LeftRight

open Serial Transition

inductive Stage
  /-- The writes it can still undo, newest first. -/
  | writing (rws : List WriteEntry)
  /-- The addresses still to copy, and the entries still to store. -/
  | publishing (sync : List Addr) (rest : List WriteEntry)

def stage (x : Tx) : Stage :=
  match x.pc with
  | .abortActive ws => .writing ws.reverse
  | .abortUndo _ rest => .writing rest
  | .commitActive ws | .commitFlip _ ws | .commitDrain _ ws =>
      .publishing (ws.map WriteEntry.addr) ws
  | .commitSyncRead _ rest ws => .publishing (rest.map WriteEntry.addr) ws
  | .commitSyncWrite _ a _ rest ws => .publishing (a :: rest.map WriteEntry.addr) ws
  | .commitMem rest => .publishing [] rest
  | .release => .writing []
  | _ => .writing x.writeSet.reverse

/-- A thread between the call of `tm_commit` and the release of the lock. -/
def publishing (x : Tx) : Bool :=
  match stage x with
  | .writing _ => false
  | .publishing .. => true

def written (L : Addr → Option Word) : List WriteEntry → Addr → Option Word
  | [] => L
  | e :: rws => Function.update (written L rws) e.addr (some e.val)

/-- Every entry knows the value that it has covered. -/
def Chained (L : Addr → Option Word) : List WriteEntry → Prop
  | [] => True
  | e :: rws => e.oldVal = written L rws e.addr ∧ Chained L rws

theorem lastVal_cons (e : WriteEntry) (rws : List WriteEntry) (a : Addr) :
    lastVal (e :: rws) a = if e.addr = a then some e.val else lastVal rws a := by
  unfold lastVal
  by_cases h : e.addr = a <;> simp [h]

theorem lastVal_append (rws rws' : List WriteEntry) (a : Addr) :
    lastVal (rws ++ rws') a = (lastVal rws a).or (lastVal rws' a) := by
  induction rws with
  | nil => simp [lastVal]
  | cons e rws ih =>
      rw [List.cons_append, lastVal_cons, lastVal_cons, ih]
      split <;> simp

theorem written_eq (L : Addr → Option Word) (rws : List WriteEntry) (a : Addr) :
    written L rws a = (lastVal rws a).or (L a) := by
  induction rws with
  | nil => simp [written, lastVal]
  | cons e rws ih =>
      rw [written, lastVal_cons, Function.update_apply, ih]
      by_cases h : e.addr = a
      · simp [h]
      · simp [h, Ne.symm h]

theorem lastVal_isSome {rws : List WriteEntry} {e : WriteEntry} (he : e ∈ rws) :
    (lastVal rws e.addr).isSome = true := by
  unfold lastVal
  rw [Option.isSome_map, List.find?_isSome]
  exact ⟨e, he, by simp⟩

theorem lastVal_eq_none {rws : List WriteEntry} {a : Addr} (ha : a ∉ rws.map WriteEntry.addr) :
    lastVal rws a = none := by
  unfold lastVal
  rw [Option.map_eq_none_iff, List.find?_eq_none]
  intro e he heq
  exact ha (of_decide_eq_true heq ▸ List.mem_map_of_mem he)

@[simp] theorem setMap_self (σ : Shared) (c : Copy) (a : Addr) (v : Option Word) :
    (σ.setMap c a v).maps c = Function.update (σ.maps c) a v := by
  simp [Shared.setMap]

theorem setMap_of_ne (σ : Shared) {c d : Copy} (h : d ≠ c) (a : Addr) (v : Option Word) :
    (σ.setMap c a v).maps d = σ.maps d := by
  simp [Shared.setMap, h]

/-- The value of a cell for a reader. -/
def current (σ : Shared) (k : Access) : Word :=
  match σ.maps (activeCopy σ.active) k.addr with
  | some v => k.width.low v
  | none => k.load σ.mem

def Cells (C : Access → Prop) : Prop := ∀ k k', C k → C k' → k ≠ k' → k.Apart k'

theorem Cells.eq_of_addr {C : Access → Prop} (hC : Cells C) {k k' : Access} (hk : C k)
    (hk' : C k') (h : k.addr = k'.addr) : k = k' := by
  by_contra hne
  have hpos : ∀ w : Width, 0 < w.bytes := fun w => by cases w <;> decide
  exact hC k k' hk hk' hne 0 (hpos _) 0 (hpos _) (by rw [h])

/-- The copies and memory while the lock is free, or while its holder can still undo. -/
structure Writing (C : Access → Prop) (S : Access → Word) (σ : Shared) (rws : List WriteEntry) :
    Prop where
  left : ∀ k v, C k → σ.maps .left k.addr = some v → k.width.low v = S k
  mem : ∀ k, C k → k.load σ.mem = S k
  right : σ.maps .right = written (σ.maps .left) rws
  chained : Chained (σ.maps .left) rws

/-- The copies and memory while the holder of the lock publishes its writes. -/
structure Publishing (C : Access → Prop) (S : Access → Word) (σ : Shared) (sync : List Addr)
    (rest : List WriteEntry) : Prop where
  right : ∀ k v, C k → σ.maps .right k.addr = some v → k.width.low v = S k
  left : ∀ a, σ.maps .left a = σ.maps .right a ∨ a ∈ sync
  there : ∀ a ∈ sync, σ.maps .right a ≠ none
  mem : ∀ k, C k → k.load σ.mem = S k ∨ k.addr ∈ rest.map WriteEntry.addr
  cells : ∀ e ∈ rest, C ⟨e.addr, e.width⟩
  last : ∀ k v, C k → lastVal rest.reverse k.addr = some v → k.width.low v = S k

def StageInv (C : Access → Prop) (S : Access → Word) (σ : Shared) : Stage → Prop
  | .writing rws => Writing C S σ rws
  | .publishing sync rest => Publishing C S σ sync rest

section Stage

variable {C : Access → Prop} {S S' : Access → Word} {σ σ' : Shared} {rws : List WriteEntry}

theorem StageInv.congr {st : Stage} (h : StageInv C S σ st) (hmaps : σ'.maps = σ.maps)
    (hmem : σ'.mem = σ.mem) : StageInv C S σ' st := by
  cases st with
  | writing rws =>
      refine ⟨?_, ?_, ?_, ?_⟩
      · rw [hmaps]
        exact h.left
      · rw [hmem]
        exact h.mem
      · rw [hmaps]
        exact h.right
      · rw [hmaps]
        exact h.chained
  | publishing sync rest =>
      refine ⟨?_, ?_, ?_, ?_, h.cells, h.last⟩
      · rw [hmaps]
        exact h.right
      · rw [hmaps]
        exact h.left
      · rw [hmaps]
        exact h.there
      · rw [hmem]
        exact h.mem

theorem Writing.current_eq (h : Writing C S σ rws) (hactive : σ.active = false) {k : Access}
    (hk : C k) : current σ k = S k := by
  unfold current
  rw [hactive, show activeCopy false = .left from rfl]
  cases hv : σ.maps .left k.addr with
  | some v => exact h.left k v hk hv
  | none => exact h.mem k hk

theorem Writing.write (h : Writing C S σ rws) (e : WriteEntry)
    (he : e.oldVal = σ.maps .right e.addr) :
    Writing C S (σ.setMap .right e.addr (some e.val)) (e :: rws) := by
  have hleft := setMap_of_ne σ (c := .right) (d := .left) (by decide) e.addr (some e.val)
  refine ⟨?_, h.mem, ?_, ?_⟩
  · rw [hleft]
    exact h.left
  · rw [hleft, setMap_self, written, h.right]
  · rw [hleft]
    exact ⟨by rw [he, h.right], h.chained⟩

theorem Writing.undo {e : WriteEntry} (h : Writing C S σ (e :: rws)) :
    Writing C S (σ.setMap .right e.addr e.oldVal) rws := by
  have hleft := setMap_of_ne σ (c := .right) (d := .left) (by decide) e.addr e.oldVal
  refine ⟨?_, h.mem, ?_, ?_⟩
  · rw [hleft]
    exact h.left
  · rw [hleft, setMap_self, h.right, written, Function.update_idem, h.chained.1,
      Function.update_eq_self]
  · rw [hleft]
    exact h.chained.2

/-- `tm_commit` is called: from now on the committed values are the ones written. -/
theorem Writing.publish {ws : List WriteEntry} (h : Writing C S σ ws.reverse)
    (hcells : ∀ e ∈ ws, C ⟨e.addr, e.width⟩)
    (hS : ∀ k, C k → S' k = ((lastVal ws.reverse k.addr).map k.width.low).getD (S k)) :
    Publishing C S' σ (ws.map WriteEntry.addr) ws where
  right k v hk hv := by
    rw [h.right, written_eq] at hv
    rw [hS k hk]
    cases hlast : lastVal ws.reverse k.addr with
    | some u =>
        rw [hlast] at hv
        obtain rfl : u = v := Option.some.inj hv
        rfl
    | none =>
        rw [hlast] at hv
        exact h.left k v hk hv
  left a := by
    by_cases ha : a ∈ ws.map WriteEntry.addr
    · exact .inr ha
    · have hnone : lastVal ws.reverse a = none := lastVal_eq_none (by simpa using ha)
      exact .inl (by rw [h.right, written_eq, hnone, Option.none_or])
  there a ha := by
    obtain ⟨e, he, rfl⟩ := List.mem_map.1 ha
    obtain ⟨v, hv⟩ := Option.isSome_iff_exists.1 (lastVal_isSome (List.mem_reverse.2 he))
    rw [h.right, written_eq, hv]
    simp
  mem k hk := by
    by_cases ha : k.addr ∈ ws.map WriteEntry.addr
    · exact .inr ha
    · have hnone : lastVal ws.reverse k.addr = none := lastVal_eq_none (by simpa using ha)
      refine .inl ?_
      rw [hS k hk, hnone]
      exact h.mem k hk
  cells := hcells
  last k v hk hv := by
    rw [hS k hk, hv]
    rfl

theorem Publishing.sync {sync : List Addr} {rest : List WriteEntry} {a : Addr} {v : Word}
    (h : Publishing C S σ (a :: sync) rest) (hv : σ.maps .right a = some v) :
    Publishing C S (σ.setMap .left a (some v)) sync rest := by
  have hright := setMap_of_ne σ (c := .left) (d := .right) (by decide) a (some v)
  refine ⟨?_, fun b => ?_, fun b hb => ?_, h.mem, h.cells, h.last⟩
  · rw [hright]
    exact h.right
  · rw [hright, setMap_self]
    by_cases hb : b = a
    · subst hb
      exact .inl (by rw [Function.update_self, hv])
    · rw [Function.update_of_ne hb]
      exact (h.left b).imp_right fun hmem => (List.mem_cons.1 hmem).resolve_left hb
  · rw [hright]
    exact h.there b (List.mem_cons_of_mem _ hb)

theorem Publishing.store (hC : Cells C) {sync : List Addr} {rest : List WriteEntry}
    {e : WriteEntry} (h : Publishing C S σ sync (e :: rest)) :
    Publishing C S { σ with mem := storeBytes σ.mem e.addr e.val e.width.bytes } sync rest where
  right := h.right
  left := h.left
  there := h.there
  mem k hk := by
    have he := h.cells e List.mem_cons_self
    by_cases hke : k = ⟨e.addr, e.width⟩
    · subst hke
      by_cases hrest : e.addr ∈ rest.map WriteEntry.addr
      · exact .inr hrest
      · refine .inl ((Access.load_store_self σ.mem ⟨e.addr, e.width⟩ e.val).trans ?_)
        refine h.last _ _ hk ?_
        rw [List.reverse_cons, lastVal_append, lastVal_eq_none (by simpa using hrest),
          Option.none_or, lastVal_cons, if_pos rfl]
    · have hload : k.load (storeBytes σ.mem e.addr e.val e.width.bytes) = k.load σ.mem :=
        Access.load_store_of_apart (hC k _ hk he hke) σ.mem e.val
      rcases h.mem k hk with hmem | hmem
      · exact .inl (hload.trans hmem)
      · refine .inr ((List.mem_cons.1 hmem).resolve_left fun haddr => hke ?_)
        exact hC.eq_of_addr hk he haddr
  cells e' he' := h.cells e' (List.mem_cons_of_mem _ he')
  last k v hk hv := by
    refine h.last k v hk ?_
    rw [List.reverse_cons, lastVal_append, hv, Option.some_or]

theorem Publishing.done (h : Publishing C S σ [] []) : Writing C S σ [] := by
  have hsame : σ.maps .left = σ.maps .right :=
    funext fun a => (h.left a).resolve_right List.not_mem_nil
  refine ⟨fun k v hk hv => ?_, fun k hk => ?_, hsame.symm, trivial⟩
  · rw [hsame] at hv
    exact h.right k v hk hv
  · exact (h.mem k hk).resolve_right List.not_mem_nil

end Stage

end Rust.LeftRight
