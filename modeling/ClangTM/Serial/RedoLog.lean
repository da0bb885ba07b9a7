import ClangTM.Serial.Trace

/-!
# Redo logs

A redo log is the list of words a transaction is going to write, with their
values. `overwrite` changes the first entry of a word in place; `putFront` and
`putBack` overwrite the entry of a word or add a new one, at either end of the
list. `writeAll` performs the writes in the order of the list, and leaves the
same memory whatever the order, as long as the log has one entry a word.
-/

namespace Serial

variable {A V : Type*} [DecidableEq A] {ws : List (A × V)} {v : V} {a : A}

def overwrite (a : A) (v : V) : List (A × V) → List (A × V)
  | [] => []
  | w :: ws => if w.1 = a then (a, v) :: ws else w :: overwrite a v ws

/-- Overwrites the entry of `a`, or adds one at the front. -/
def putFront (a : A) (v : V) (ws : List (A × V)) : List (A × V) :=
  if (ws.lookup a).isSome then overwrite a v ws else (a, v) :: ws

/-- Overwrites the entry of `a`, or adds one at the end. -/
def putBack (a : A) (v : V) (ws : List (A × V)) : List (A × V) :=
  if (ws.lookup a).isSome then overwrite a v ws else ws ++ [(a, v)]

def writeAll (m : A → V) (ws : List (A × V)) : A → V :=
  ws.foldl (fun m w => Function.update m w.1 w.2) m

@[simp] theorem writeAll_nil (m : A → V) : writeAll m [] = m := rfl

@[simp] theorem writeAll_cons (m : A → V) (w : A × V) (ws : List (A × V)) :
    writeAll m (w :: ws) = writeAll (Function.update m w.1 w.2) ws := rfl

theorem lookup_cons_eq (w : A × V) (ws : List (A × V)) (b : A) :
    (w :: ws).lookup b = if b = w.1 then some w.2 else ws.lookup b := by
  obtain ⟨a, v⟩ := w
  by_cases h : b = a
  · subst h
    simp
  · simp [List.lookup_cons, beq_eq_false_iff_ne.2 h, h]

theorem lookup_overwrite (a b : A) (v : V) (ws : List (A × V)) :
    (overwrite a v ws).lookup b =
      if b = a then (ws.lookup a).map fun _ => v else ws.lookup b := by
  induction ws with
  | nil => simp [overwrite]
  | cons w ws ih =>
      by_cases hw : w.1 = a
      · by_cases hb : b = a <;> simp [overwrite, lookup_cons_eq, hw, hb]
      · rw [overwrite, if_neg hw, lookup_cons_eq, lookup_cons_eq, lookup_cons_eq, ih]
        grind

@[simp] theorem lookup_putFront (a b : A) (v : V) (ws : List (A × V)) :
    (putFront a v ws).lookup b = if b = a then some v else ws.lookup b := by
  unfold putFront
  cases h : ws.lookup a with
  | none => simp [lookup_cons_eq]
  | some w => simp [lookup_overwrite, h]

theorem mem_putFront {w : A × V} (h : w ∈ putFront a v ws) : w = (a, v) ∨ w ∈ ws := by
  have hmem : ∀ ws : List (A × V), w ∈ overwrite a v ws → w = (a, v) ∨ w ∈ ws := by
    intro ws hw
    induction ws with
    | nil => exact .inr hw
    | cons u ws ih =>
        rw [overwrite] at hw
        split at hw <;> grind
  unfold putFront at h
  split at h
  · exact hmem ws h
  · exact List.mem_cons.1 h

theorem lookup_append (ws ws' : List (A × V)) (b : A) :
    (ws ++ ws').lookup b = (ws.lookup b).or (ws'.lookup b) := by
  induction ws with
  | nil => simp
  | cons w ws ih =>
      rw [List.cons_append, lookup_cons_eq, lookup_cons_eq, ih]
      split <;> simp

@[simp] theorem lookup_putBack (a b : A) (v : V) (ws : List (A × V)) :
    (putBack a v ws).lookup b = if b = a then some v else ws.lookup b := by
  unfold putBack
  cases h : ws.lookup a with
  | none =>
      by_cases hb : b = a
      · subst hb
        simp [lookup_append, lookup_cons_eq, h]
      · simp [lookup_append, lookup_cons_eq, hb]
  | some w => simp [lookup_overwrite, h]

theorem mem_of_lookup (h : ws.lookup a = some v) : (a, v) ∈ ws := by
  obtain ⟨l₁, l₂, rfl, -⟩ := List.lookup_eq_some_iff.1 h
  simp

/-- In a log with one entry a word, the entry of a word is what it looks up to. -/
theorem lookup_of_mem {w : A × V} (hnodup : (ws.map Prod.fst).Nodup) (hw : w ∈ ws) :
    ws.lookup w.1 = some w.2 := by
  induction ws with
  | nil => simp at hw
  | cons u ws ih =>
      rw [List.map_cons, List.nodup_cons] at hnodup
      rw [lookup_cons_eq]
      rcases List.mem_cons.1 hw with rfl | hw
      · rw [if_pos rfl]
      · have hne : w.1 ≠ u.1 := fun h => hnodup.1 (h ▸ List.mem_map_of_mem hw)
        rw [if_neg hne, ih hnodup.2 hw]

/-- The order of the entries of a log with one entry a word does not matter. -/
theorem lookup_eq_of_perm {ws ws' : List (A × V)} (hperm : ws.Perm ws')
    (hnodup : (ws.map Prod.fst).Nodup) (a : A) : ws'.lookup a = ws.lookup a := by
  have hnodup' : (ws'.map Prod.fst).Nodup := (hperm.map Prod.fst).nodup_iff.1 hnodup
  cases hw : ws.lookup a with
  | some v => exact lookup_of_mem hnodup' (hperm.mem_iff.1 (mem_of_lookup hw))
  | none =>
      cases hw' : ws'.lookup a with
      | none => rfl
      | some v =>
          rw [← hw]
          exact (lookup_of_mem hnodup (hperm.mem_iff.2 (mem_of_lookup hw'))).symm

theorem map_fst_overwrite (a : A) (v : V) (ws : List (A × V)) :
    (overwrite a v ws).map Prod.fst = ws.map Prod.fst := by
  induction ws with
  | nil => rfl
  | cons w ws ih =>
      by_cases hw : w.1 = a <;> simp [overwrite, hw, ih]

theorem mem_map_fst_putBack {a b : A} :
    b ∈ (putBack a v ws).map Prod.fst ↔ b = a ∨ b ∈ ws.map Prod.fst := by
  unfold putBack
  split
  · next hsome =>
      obtain ⟨w, hw, heq⟩ := List.lookup_isSome_iff.1 hsome
      have ha : a ∈ ws.map Prod.fst := List.mem_map.2 ⟨w, hw, (beq_iff_eq.1 heq).symm⟩
      rw [map_fst_overwrite]
      exact ⟨.inr, fun h => h.elim (fun h => h ▸ ha) id⟩
  · rw [List.map_append, List.mem_append, or_comm]
    simp

theorem nodup_putFront (h : (ws.map Prod.fst).Nodup) :
    ((putFront a v ws).map Prod.fst).Nodup := by
  unfold putFront
  split
  · rwa [map_fst_overwrite]
  · next hnone =>
      refine List.nodup_cons.2 ⟨fun hmem => hnone ?_, h⟩
      obtain ⟨w, hw, rfl⟩ := List.mem_map.1 hmem
      exact List.lookup_isSome_iff.2 ⟨w, hw, by simp⟩

theorem nodup_putBack (h : (ws.map Prod.fst).Nodup) : ((putBack a v ws).map Prod.fst).Nodup := by
  unfold putBack
  split
  · rwa [map_fst_overwrite]
  · next hnone =>
      rw [List.map_append, List.nodup_append]
      refine ⟨h, by simp, fun b hb c hc hbc => hnone ?_⟩
      obtain ⟨w, hw, rfl⟩ := List.mem_map.1 hb
      have hc : c = a := by simpa using hc
      exact List.lookup_isSome_iff.2 ⟨w, hw, by simp [hbc, hc]⟩

/-- Writing back newest first entries last gives every word the value the log
holds for it. -/
theorem writeAll_reverse (m : A → V) (ws : List (A × V)) (b : A) :
    writeAll m ws.reverse b = (ws.lookup b).getD (m b) := by
  induction ws with
  | nil => rfl
  | cons w ws ih =>
      rw [writeAll, List.foldl_reverse, List.foldr_cons, ← List.foldl_reverse,
        lookup_cons_eq]
      by_cases h : b = w.1
      · simp [h]
      · rw [if_neg h, Function.update_of_ne h]
        exact ih

/-- In a log with one entry a word, the order of the writes does not matter. -/
theorem writeAll_of_nodup (m : A → V) (hnodup : (ws.map Prod.fst).Nodup) (b : A) :
    writeAll m ws b = (ws.lookup b).getD (m b) := by
  induction ws generalizing m with
  | nil => rfl
  | cons w ws ih =>
      rw [List.map_cons, List.nodup_cons] at hnodup
      rw [writeAll_cons, ih _ hnodup.2, lookup_cons_eq]
      by_cases h : b = w.1
      · have hnone : ws.lookup b = none := by
          refine List.lookup_eq_none_iff.2 fun p hp => ?_
          rw [bne_iff_ne, h]
          exact fun heq => hnodup.1 (heq ▸ List.mem_map_of_mem hp)
        rw [if_pos h, hnone, h]
        simp
      · rw [if_neg h, Function.update_of_ne h]

theorem writeAll_putBack (m : A → V) (hnodup : (ws.map Prod.fst).Nodup) :
    writeAll m (putBack a v ws) = Function.update (writeAll m ws) a v := by
  funext b
  rw [writeAll_of_nodup m (nodup_putBack hnodup), lookup_putBack, Function.update_apply,
    writeAll_of_nodup m hnodup]
  split <;> rfl

end Serial
