import Mathlib.Algebra.Order.Group.Nat
import ClangTM.Serial.RedoLog

/-!
# Versions, and folding them into a memory

A list of versions, newest first: each has a number and the redo log of one transaction, and
the numbers decrease along the list. `latest` is the newest version of a word and `value` the
memory that the versions leave over an initial one.

Versions are folded into a memory by storing their entries again, in increasing order of their
numbers. On the way a word can hold an older value than before, as long as its newest version
is still to come: `Folding` is this invariant between two versions and `FoldingEntry` inside
one, with the entries of the version that are left.
-/

namespace Serial

variable {A V : Type*} [DecidableEq A]

/-- The newest version of a word: its number and the value. -/
def latest (vs : List (ℕ × List (A × V))) (a : A) : Option (ℕ × V) :=
  match vs with
  | [] => none
  | e :: vs =>
      match e.2.lookup a with
      | some v => some (e.1, v)
      | none => latest vs a

def value (m₀ : A → V) (vs : List (ℕ × List (A × V))) (a : A) : V :=
  ((latest vs a).map Prod.snd).getD (m₀ a)

variable {m m₀ : A → V} {vs : List (ℕ × List (A × V))} {a : A} {n : ℕ} {ws : List (A × V)}

@[simp] theorem value_nil (m₀ : A → V) : value m₀ [] = m₀ := rfl

theorem latest_cons_of_some {v : V} (h : ws.lookup a = some v) :
    latest ((n, ws) :: vs) a = some (n, v) := by
  simp [latest, h]

theorem latest_cons_of_none (h : ws.lookup a = none) : latest ((n, ws) :: vs) a = latest vs a := by
  simp [latest, h]

theorem value_of_latest {p : ℕ} {v : V} (h : latest vs a = some (p, v)) : value m₀ vs a = v := by
  simp [value, h]

/-- A new version writes its redo log over the memory. -/
theorem value_cons (m₀ : A → V) (vs : List (ℕ × List (A × V))) (n : ℕ) (ws : List (A × V)) (a : A) :
    value m₀ ((n, ws) :: vs) a = (ws.lookup a).getD (value m₀ vs a) := by
  cases h : ws.lookup a with
  | none => simp [value, latest_cons_of_none h]
  | some v => simp [value, latest_cons_of_some h]

theorem mem_of_latest {p : ℕ} {v : V} (h : latest vs a = some (p, v)) :
    ∃ ws, (p, ws) ∈ vs ∧ ws.lookup a = some v := by
  induction vs with
  | nil => cases h
  | cons e vs ih =>
      obtain ⟨n, ws⟩ := e
      cases hws : ws.lookup a with
      | none =>
          rw [latest_cons_of_none hws] at h
          obtain ⟨ws', hmem, hlook⟩ := ih h
          exact ⟨ws', List.mem_cons_of_mem _ hmem, hlook⟩
      | some w =>
          rw [latest_cons_of_some hws] at h
          obtain ⟨rfl, rfl⟩ := Prod.mk.inj (Option.some.inj h)
          exact ⟨ws, List.mem_cons_self, hws⟩

section Sorted

variable (hs : (vs.map Prod.fst).Pairwise (· > ·))
include hs

omit [DecidableEq A] in
/-- A number stands for one version. -/
theorem eq_of_mem {ws' : List (A × V)} (h : (n, ws) ∈ vs) (h' : (n, ws') ∈ vs) : ws = ws' := by
  induction vs with
  | nil => cases h
  | cons e vs ih =>
      rw [List.map_cons, List.pairwise_cons] at hs
      have hlt : ∀ q ∈ vs, e.1 > q.1 := fun q hq => hs.1 q.1 (List.mem_map_of_mem hq)
      rcases List.mem_cons.1 h with rfl | hin
      · rcases List.mem_cons.1 h' with heq | hin'
        · exact (congrArg Prod.snd heq).symm
        · exact absurd (hlt _ hin') (lt_irrefl _)
      · rcases List.mem_cons.1 h' with rfl | hin'
        · exact absurd (hlt _ hin) (lt_irrefl _)
        · exact ih hs.2 hin hin'

/-- A version that has a word is the newest one of that word, or an older one. -/
theorem latest_of_mem {v : V} (h : (n, ws) ∈ vs) (hv : ws.lookup a = some v) :
    ∃ p w, latest vs a = some (p, w) ∧ (n < p ∨ n = p ∧ v = w) := by
  induction vs with
  | nil => cases h
  | cons e vs ih =>
      obtain ⟨q, us⟩ := e
      rw [List.map_cons, List.pairwise_cons] at hs
      rcases List.mem_cons.1 h with heq | h
      · obtain ⟨rfl, rfl⟩ := Prod.mk.inj heq
        exact ⟨n, v, latest_cons_of_some hv, .inr ⟨rfl, rfl⟩⟩
      · cases hus : us.lookup a with
        | none =>
            rw [latest_cons_of_none hus]
            exact ih hs.2 h
        | some u =>
            exact ⟨q, u, latest_cons_of_some hus, .inl (hs.1 n (List.mem_map_of_mem h))⟩

end Sorted

/-- The newest version of the word is one of those from `lo` on and below `hi`. -/
def Unfolded (vs : List (ℕ × List (A × V))) (lo hi : ℕ) (a : A) : Prop :=
  ∃ p v, latest vs a = some (p, v) ∧ lo ≤ p ∧ p < hi

/-- The versions from `lo` on and below `hi` are still to be folded into `m`. -/
def Folding (m m₀ : A → V) (vs : List (ℕ × List (A × V))) (lo hi : ℕ) : Prop :=
  ∀ a, m a = value m₀ vs a ∨ Unfolded vs lo hi a

/-- The entries `rest` of version `n` are still to be folded, and then the versions after
it. -/
def FoldingEntry (m m₀ : A → V) (vs : List (ℕ × List (A × V))) (n hi : ℕ) (rest : List (A × V)) :
    Prop :=
  ∀ a, m a = value m₀ vs a ∨ Unfolded vs (n + 1) hi a ∨
    (∃ v, latest vs a = some (n, v)) ∧ (rest.lookup a).isSome

variable {lo hi : ℕ} {rest : List (A × V)}

theorem Folding.done (h : Folding m m₀ vs lo hi) (hle : hi ≤ lo) : m = value m₀ vs := by
  funext a
  rcases h a with heq | ⟨p, v, -, hlo, hhi⟩
  · exact heq
  · omega

/-- There is no version `n`. -/
theorem Folding.skip (h : Folding m m₀ vs n hi) (hno : ∀ ws, (n, ws) ∉ vs) :
    Folding m m₀ vs (n + 1) hi := by
  intro a
  rcases h a with heq | ⟨p, v, hp, hlo, hhi⟩
  · exact .inl heq
  · obtain ⟨ws, hmem, -⟩ := mem_of_latest hp
    have hne : n ≠ p := fun heq => hno ws (heq ▸ hmem)
    exact .inr ⟨p, v, hp, by omega, hhi⟩

theorem Folding.enter (hs : (vs.map Prod.fst).Pairwise (· > ·)) (h : Folding m m₀ vs n hi)
    (hmem : (n, ws) ∈ vs) : FoldingEntry m m₀ vs n hi ws := by
  intro a
  rcases h a with heq | ⟨p, v, hp, hlo, hhi⟩
  · exact .inl heq
  · rcases Nat.eq_or_lt_of_le hlo with rfl | hlt
    · obtain ⟨ws', hmem', hlook⟩ := mem_of_latest hp
      obtain rfl := eq_of_mem hs hmem hmem'
      exact .inr (.inr ⟨⟨v, hp⟩, by rw [hlook]; rfl⟩)
    · exact .inr (.inl ⟨p, v, hp, hlt, hhi⟩)

theorem FoldingEntry.leave (h : FoldingEntry m m₀ vs n hi []) : Folding m m₀ vs (n + 1) hi := by
  intro a
  rcases h a with heq | hlater | ⟨-, hnil⟩
  · exact .inl heq
  · exact .inr hlater
  · cases hnil

theorem FoldingEntry.mono {rest' : List (A × V)} (h : FoldingEntry m m₀ vs n hi rest)
    (hsub : ∀ a, (rest.lookup a).isSome → (rest'.lookup a).isSome) :
    FoldingEntry m m₀ vs n hi rest' := fun a =>
  (h a).imp_right fun h => h.imp_right fun h => ⟨h.1, hsub a h.2⟩

/-- The next entry is stored; no version from `hi` on has its word. -/
theorem FoldingEntry.store (hs : (vs.map Prod.fst).Pairwise (· > ·)) {v : V}
    (h : FoldingEntry m m₀ vs n hi ((a, v) :: rest)) (hmem : (n, ws) ∈ vs)
    (hv : ws.lookup a = some v) (hhi : ∀ p w, latest vs a = some (p, w) → p < hi) :
    FoldingEntry (Function.update m a v) m₀ vs n hi rest := by
  intro b
  by_cases hb : b = a
  · subst hb
    obtain ⟨p, w, hp, hlt | ⟨rfl, rfl⟩⟩ := latest_of_mem hs hmem hv
    · exact .inr (.inl ⟨p, w, hp, hlt, hhi p w hp⟩)
    · exact .inl ((Function.update_self _ _ _).trans (value_of_latest hp).symm)
  · rw [Function.update_of_ne hb]
    rcases h b with heq | hlater | ⟨hlast, hsome⟩
    · exact .inl heq
    · exact .inr (.inl hlater)
    · rw [lookup_cons_eq, if_neg hb] at hsome
      exact .inr (.inr ⟨hlast, hsome⟩)

/-- The next entry is left out; its word has a version from `hi` on. -/
theorem FoldingEntry.skip {v w : V} {p : ℕ} (h : FoldingEntry m m₀ vs n hi ((a, v) :: rest))
    (hn : n < hi) (hp : latest vs a = some (p, w)) (hle : hi ≤ p) :
    FoldingEntry m m₀ vs n hi rest := by
  intro b
  rcases h b with heq | hlater | ⟨⟨u, hlast⟩, hsome⟩
  · exact .inl heq
  · exact .inr (.inl hlater)
  · by_cases hb : b = a
    · subst hb
      rw [hp] at hlast
      have := congrArg Prod.fst (Option.some.inj hlast)
      dsimp only at this
      omega
    · rw [lookup_cons_eq, if_neg hb] at hsome
      exact .inr (.inr ⟨⟨u, hlast⟩, hsome⟩)

/-- Every word has its newest value, or its newest version is one that is still to be folded
for that word. -/
def Pending (m m₀ : A → V) (vs : List (ℕ × List (A × V))) (todo : A → ℕ → Prop) : Prop :=
  ∀ a, m a = value m₀ vs a ∨ ∃ p v, latest vs a = some (p, v) ∧ todo a p

namespace Pending

variable {todo todo' : A → ℕ → Prop}

theorem of_eq (h : m = value m₀ vs) : Pending m m₀ vs todo := fun a => .inl (congrFun h a)

theorem done (h : Pending m m₀ vs todo) (hno : ∀ a p, ¬todo a p) : m = value m₀ vs := by
  funext a
  rcases h a with heq | ⟨p, v, -, htodo⟩
  · exact heq
  · exact absurd htodo (hno a p)

theorem imp (h : Pending m m₀ vs todo)
    (himp : ∀ a p v, latest vs a = some (p, v) → todo a p → todo' a p) :
    Pending m m₀ vs todo' := fun a =>
  (h a).imp_right fun ⟨p, v, hp, htodo⟩ => ⟨p, v, hp, himp a p v hp htodo⟩

/-- An entry of version `n` is stored. If its word has a newer version, that one is still to
come. -/
theorem store (hs : (vs.map Prod.fst).Pairwise (· > ·)) {v : V} (h : Pending m m₀ vs todo)
    (hmem : (n, ws) ∈ vs) (hv : ws.lookup a = some v)
    (hother : ∀ b p, b ≠ a → todo b p → todo' b p)
    (hnewer : ∀ p w, latest vs a = some (p, w) → n < p → todo' a p) :
    Pending (Function.update m a v) m₀ vs todo' := by
  intro b
  by_cases hb : b = a
  · subst hb
    obtain ⟨p, w, hp, hlt | ⟨rfl, rfl⟩⟩ := latest_of_mem hs hmem hv
    · exact .inr ⟨p, w, hp, hnewer p w hp hlt⟩
    · exact .inl ((Function.update_self _ _ _).trans (value_of_latest hp).symm)
  · rw [Function.update_of_ne hb]
    exact (h b).imp_right fun ⟨p, w, hp, htodo⟩ => ⟨p, w, hp, hother b p hb htodo⟩

end Pending

end Serial
