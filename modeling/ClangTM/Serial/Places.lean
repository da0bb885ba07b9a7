import ClangTM.Serial.RedoLog

/-!
# Redo logs of places that may overlap

The places of a memory are what single accesses reach. Two places may have a part in common;
stores to places that are `Apart` commute. In a log the newest entry comes first, and `writeAll`
performs the oldest write first. As long as a place is the same as or apart from all places of the
log, the log stands for the memory it is going to leave: overwriting the entry of the place is a
store to it (`writeAll_overwrite`), and looking the place up is a load (`load_writeAll`).
-/

namespace Serial

/-- The places `K` of the memories `M`; `val` is what a load finds of a value. -/
structure Places (M K V R : Type*) where
  load : M → K → R
  store : M → K → V → M
  val : K → V → R
  Apart : K → K → Prop
  load_store : ∀ m k v, load (store m k v) k = val k v
  load_store_of_apart : ∀ m k k' v, Apart k' k → load (store m k' v) k = load m k
  store_store : ∀ m k v v', store (store m k v) k v' = store m k v'
  store_comm : ∀ m k k' v v', Apart k k' →
    store (store m k v) k' v' = store (store m k' v') k v

namespace Places

variable {M K V R : Type*} (P : Places M K V R) {m : M} {k : K} {v : V} {ws ws' : List (K × V)}

/-- Performs the writes of a log, the oldest one first. -/
def writeAll (m : M) (ws : List (K × V)) : M := ws.foldr (fun w m => P.store m w.1 w.2) m

/-- The place is one of the log or apart from all of them. -/
def Fits (k : K) (ws : List (K × V)) : Prop := ∀ w ∈ ws, w.1 = k ∨ P.Apart w.1 k

variable {P}

theorem Fits.of_cons {w : K × V} (h : P.Fits k (w :: ws)) : P.Fits k ws :=
  fun u hu => h u (List.mem_cons_of_mem w hu)

theorem writeAll_perm (hperm : ws.Perm ws')
    (h : ∀ w ∈ ws, ∀ w' ∈ ws, w = w' ∨ P.Apart w.1 w'.1) : P.writeAll m ws = P.writeAll m ws' := by
  refine hperm.foldr_eq' (fun w hw w' hw' m => ?_) m
  rcases h w hw w' hw' with rfl | hapart
  · rfl
  · exact P.store_comm m _ _ _ _ hapart

variable [DecidableEq K]

theorem writeAll_overwrite (h : P.Fits k ws) (hk : (ws.lookup k).isSome) :
    P.writeAll m (overwrite k v ws) = P.store (P.writeAll m ws) k v := by
  induction ws with
  | nil => simp at hk
  | cons w ws ih =>
      rw [overwrite]
      split
      · next heq => exact heq ▸ (P.store_store _ _ _ _).symm
      · next hne =>
          rw [lookup_cons_eq, if_neg (Ne.symm hne)] at hk
          have hapart := (h w List.mem_cons_self).resolve_left hne
          have hcomm := P.store_comm (P.writeAll m ws) w.1 k w.2 v hapart
          exact (congrArg (P.store · w.1 w.2) (ih h.of_cons hk)).trans hcomm.symm

theorem writeAll_putFront (h : P.Fits k ws) :
    P.writeAll m (putFront k v ws) = P.store (P.writeAll m ws) k v := by
  unfold putFront
  split
  · next hk => exact writeAll_overwrite h hk
  · rfl

theorem load_writeAll (h : P.Fits k ws) :
    P.load (P.writeAll m ws) k = ((ws.lookup k).map (P.val k)).getD (P.load m k) := by
  induction ws with
  | nil => rfl
  | cons w ws ih =>
      rw [lookup_cons_eq]
      split
      · next heq => exact heq ▸ P.load_store _ _ _
      · next hne =>
          have hapart := (h w List.mem_cons_self).resolve_left (Ne.symm hne)
          exact (P.load_store_of_apart _ _ _ _ hapart).trans (ih h.of_cons)

end Places

end Serial
