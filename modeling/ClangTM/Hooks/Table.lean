import Mathlib.Data.Nat.Notation
import Mathlib.Logic.Function.Basic

/-!
# The table of hooks

`tm_hooks.cpp` without the plugin macro: the hooks `tm_*` and the copies of them that are kept
for the thread count, the phase switch, the trace and the invariant oracle.

The trace and the oracle each put a wrapper into the table. What keeps the table up to date
does not know of them: `apply_hooks_unlocked` writes over the wrapper of the oracle, or, when
the trace is active, leaves out the hooks that the trace does not wrap; and `tm_swap_runtime`
writes over both.
-/

namespace Hooks

variable {F C : Type}

/-- `TM_HOOK_FIELDS`. -/
inductive Field
  | begin | «end» | malloc | calloc | realloc | free
  | readI1 | readI2 | readI4 | readI8 | readF4 | readF8 | readPtr
  | writeI1 | writeI2 | writeI4 | writeI8 | writeF4 | writeF8 | writePtr
  | getEnv | setJmpbuf | getThreadState
  deriving DecidableEq

/-- `TM_HOOK_ACCESS_FIELDS`. -/
def Field.access : Field → Bool
  | .getEnv | .setJmpbuf | .getThreadState => false
  | _ => true

/-- What a hook points to: a stub, a function of a backend or a wrapper. -/
inductive Fn (F : Type)
  | stub (f : Field)
  | real (g : F)
  | trace (f : Field)
  | endWithInvariant
  deriving DecidableEq

abbrev TMRealHooks (F : Type) := Field → Option F

structure State (F C : Type) where
  tm : Field → Fn F
  realHooks : TMRealHooks F
  registered : Bool
  threadCount : Int32
  traceActive : Bool
  traceRealHooks : Field → Option (Fn F)
  invariantCb : Option C
  originalTmEnd : Option (Fn F)

section Code

variable (s : State F C)

/-- The state after `tm_trace_hook_init`, with or without a trace. -/
def init (trace : Bool) : State F C where
  tm f := if trace && f.access then .trace f else .stub f
  realHooks _ := none
  registered := false
  threadCount := 1
  traceActive := trace
  traceRealHooks f := if trace then some (.stub f) else none
  invariantCb := none
  originalTmEnd := none

def pick (single : Bool) (f : Field) (real : Option F) : Fn F :=
  if single then .stub f else real.elim (.stub f) .real

def applyHooks : State F C :=
  let single := decide (s.threadCount ≤ 1) && !s.registered
  if s.traceActive then { s with traceRealHooks := fun f => (s.realHooks f).map .real }
  else { s with tm := fun f => pick single f (s.realHooks f) }

def registerRealHooks (hooks : TMRealHooks F) : State F C :=
  applyHooks { s with realHooks := hooks, registered := true }

def setNumThreads (n : Int32) : State F C :=
  let s' := { s with threadCount := n }
  if s.registered then applyHooks s' else s'

def hookInitThread : State F C :=
  let s' := { s with threadCount := s.threadCount + 1 }
  if 1 ≤ s.threadCount ∧ s.registered then applyHooks s' else s'

def hookExitThread : State F C := { s with threadCount := s.threadCount - 1 }

def swapRuntime (hooks : TMRealHooks F) : State F C :=
  { s with
    tm := fun f => (hooks f).elim (s.tm f) .real
    realHooks := fun f => (hooks f).or (s.realHooks f) }

def registerInvariantCallback (cb : Option C) : State F C :=
  let s' := { s with invariantCb := cb }
  if s.originalTmEnd.isNone then
    { s' with
      originalTmEnd := some (s.tm .«end»)
      tm := Function.update s.tm .«end» .endWithInvariant }
  else s'

inductive Op (F C : Type)
  | registerRealHooks (hooks : TMRealHooks F)
  | setNumThreads (n : Int32)
  | hookInitThread
  | hookExitThread
  | swapRuntime (hooks : TMRealHooks F)
  | registerInvariantCallback (cb : Option C)

def step : Op F C → State F C
  | .registerRealHooks hooks => registerRealHooks s hooks
  | .setNumThreads n => setNumThreads s n
  | .hookInitThread => hookInitThread s
  | .hookExitThread => hookExitThread s
  | .swapRuntime hooks => swapRuntime s hooks
  | .registerInvariantCallback cb => registerInvariantCallback s cb

/-- The function below the wrapper of the oracle. -/
def belowOracle : Fn F → Option (Fn F)
  | .endWithInvariant => s.originalTmEnd
  | fn => some fn

/-- The function below the wrapper of the trace. -/
def belowTrace : Fn F → Option (Fn F)
  | .trace f => s.traceRealHooks f
  | fn => some fn

/-- The hook with its wrappers removed. -/
def unwrap (f : Field) : Option (Fn F) := (belowOracle s (s.tm f)).bind (belowTrace s)

/-- A call of the hook writes to the trace. -/
def Logs (f : Field) : Prop := ∃ g, belowOracle s (s.tm f) = some (.trace g)

/-- The callback that a call of the hook runs at its end. -/
def callback (f : Field) : Option C :=
  match s.tm f with
  | .endWithInvariant => s.invariantCb
  | _ => none

end Code

/-- What was supplied last for every hook, and the last callback. -/
structure Supplied (F C : Type) where
  last : TMRealHooks F
  cb : Option C

def Supplied.step (sup : Supplied F C) : Op F C → Supplied F C
  | .registerRealHooks hooks => { sup with last := hooks }
  | .swapRuntime hooks => { sup with last := fun f => (hooks f).or (sup.last f) }
  | .registerInvariantCallback cb => { sup with cb := cb }
  | _ => sup

/-- The table is the one supplied, and the wrappers are in place. -/
structure Consistent (s : State F C) (sup : Supplied F C) : Prop where
  hooks : ∀ f, unwrap s f = some ((sup.last f).elim (.stub f) .real)
  logs : s.traceActive = true → ∀ f : Field, f.access = true → Logs s f
  oracle : callback s .«end» = sup.cb

/-- The calls that keep the table: under a trace, registered hooks are exactly those that the
trace wraps and a swap supplies none; without one, no call after the registration of a callback
writes `tm_end`. -/
def Keeps (s : State F C) : Op F C → Prop
  | .registerRealHooks hooks =>
      if s.traceActive then ∀ f, (hooks f).isSome = f.access else s.originalTmEnd = none
  | .setNumThreads _ => s.traceActive = true ∨ s.originalTmEnd = none
  | .hookInitThread => s.traceActive = true ∨ s.originalTmEnd = none ∨ ¬ 1 ≤ s.threadCount
  | .swapRuntime hooks =>
      if s.traceActive then ∀ f, hooks f = none
      else s.originalTmEnd = none ∨ hooks .«end» = none
  | _ => True

section Invariant

variable {s : State F C} {sup : Supplied F C}

/-- A hook without the wrapper of the oracle. -/
def plain (trace : Bool) (sup : Supplied F C) (f : Field) : Fn F :=
  if trace && f.access then .trace f else (sup.last f).elim (.stub f) .real

structure Inv (s : State F C) (sup : Supplied F C) : Prop where
  registered : s.registered = true
  real : s.realHooks = sup.last
  cb : s.invariantCb = sup.cb
  trace : s.traceActive = true →
    ∀ f, s.traceRealHooks f = (sup.last f).map .real ∧ (sup.last f).isSome = f.access
  original : ∀ fn, s.originalTmEnd = some fn → fn = plain s.traceActive sup .«end»
  tm : ∀ f, s.tm f = if f = .«end» ∧ s.originalTmEnd ≠ none then .endWithInvariant
    else plain s.traceActive sup f
  unset : s.originalTmEnd = none → s.invariantCb = none

theorem plain_ne_endWithInvariant {trace : Bool} {f : Field} :
    plain trace sup f ≠ .endWithInvariant := by
  rw [plain]
  split
  · nofun
  · cases sup.last f <;> nofun

theorem plain_trace (h : ∀ f, (sup.last f).isSome = f.access) (f : Field) :
    plain true sup f = if f.access then .trace f else .stub f := by
  rw [plain, Bool.true_and]
  split
  · rfl
  · next hf =>
      rw [← h, Option.not_isSome_iff_eq_none] at hf
      rw [hf, Option.elim_none]

theorem Inv.belowOracle_tm (h : Inv s sup) (f : Field) :
    belowOracle s (s.tm f) = some (plain s.traceActive sup f) := by
  rw [h.tm]
  split
  · next hf =>
      obtain ⟨rfl, hne⟩ := hf
      obtain ⟨fn, hfn⟩ := Option.ne_none_iff_exists'.1 hne
      rw [belowOracle, hfn, h.original fn hfn]
  · cases hp : plain s.traceActive sup f with
    | endWithInvariant => exact absurd hp plain_ne_endWithInvariant
    | stub | real | trace => rfl

theorem Inv.consistent (h : Inv s sup) : Consistent s sup where
  hooks f := by
    rw [unwrap, h.belowOracle_tm, Option.bind_some, plain]
    split
    · next hf =>
        obtain ⟨htrace, hf⟩ := Bool.and_eq_true_iff.1 hf
        obtain ⟨hreal, hsome⟩ := h.trace htrace f
        obtain ⟨g, hg⟩ := Option.isSome_iff_exists.1 (hsome.trans hf)
        rw [belowTrace, hreal, hg]
        rfl
    · cases sup.last f <;> rfl
  logs htrace f hf := by
    rw [Logs, h.belowOracle_tm, plain, htrace, hf]
    exact ⟨f, rfl⟩
  oracle := by
    rw [callback, h.tm, ← h.cb]
    split
    · rfl
    · next hne =>
        split at hne
        · exact absurd rfl hne
        · next hf =>
            rw [h.unset (Classical.byContradiction fun horig => hf ⟨rfl, horig⟩)]

/-- The wrappers of the trace are in place, and that of the oracle over them. -/
def Wrapped (s : State F C) : Prop :=
  (∀ fn, s.originalTmEnd = some fn → fn = .trace .«end») ∧
    ∀ f, s.tm f = if f = .«end» ∧ s.originalTmEnd ≠ none then .endWithInvariant
      else if f.access then .trace f else .stub f

theorem Inv.wrapped (h : Inv s sup) (hact : s.traceActive = true) : Wrapped s := by
  have hsome := fun f => (h.trace hact f).2
  refine ⟨fun fn hfn => ?_, fun f => ?_⟩
  · rw [h.original fn hfn, hact, plain_trace hsome]
    rfl
  · rw [h.tm, hact, plain_trace hsome]

theorem inv_applyHooks (hreg : s.registered = true) (hreal : s.realHooks = sup.last)
    (hcb : s.invariantCb = sup.cb) (hnone : s.originalTmEnd = none → s.invariantCb = none)
    (htrace : s.traceActive = true → (∀ f, (sup.last f).isSome = f.access) ∧ Wrapped s)
    (horig : s.traceActive = false → s.originalTmEnd = none) : Inv (applyHooks s) sup := by
  rw [applyHooks]
  cases hact : s.traceActive with
  | true =>
      obtain ⟨hsome, horig, htm⟩ := htrace hact
      refine ⟨hreg, hreal, hcb, fun _ f => ⟨?_, hsome f⟩, fun fn hfn => ?_, fun f => ?_, hnone⟩
      · rw [← hreal]
        rfl
      · rw [horig fn hfn]
        simp [plain_trace hsome, Field.access]
      · simp [plain_trace hsome, htm f]
  | false =>
      refine ⟨hreg, hreal, hcb, fun htrue => ?_, fun fn hfn => ?_, fun f => ?_, hnone⟩
      · cases htrue
      · cases (horig hact).symm.trans hfn
      · simp [horig hact, hreg, pick, plain, hreal]

theorem Inv.applyHooks (h : Inv s sup) (hop : s.traceActive = true ∨ s.originalTmEnd = none) :
    Inv (applyHooks s) sup :=
  inv_applyHooks h.registered h.real h.cb h.unset
    (fun hact => ⟨fun f => (h.trace hact f).2, h.wrapped hact⟩)
    fun hact => hop.resolve_left (by simp [hact])

theorem Inv.step (h : Inv s sup) {op : Op F C} (hop : Keeps s op) :
    Inv (step s op) (sup.step op) := by
  cases op with
  | registerRealHooks hooks =>
      rw [Keeps] at hop
      refine inv_applyHooks rfl rfl h.cb h.unset (fun hact => ?_) fun hact => ?_
      · rw [if_pos hact] at hop
        exact ⟨hop, h.wrapped hact⟩
      · rwa [if_neg (by simpa using hact)] at hop
  | setNumThreads n =>
      rw [Hooks.step, setNumThreads, if_pos h.registered]
      exact Inv.applyHooks { h with } hop
  | hookInitThread =>
      rw [Hooks.step, hookInitThread]
      split
      · next hcount =>
        refine Inv.applyHooks { h with } (hop.imp_right fun ho => ho.resolve_right ?_)
        exact not_not.2 hcount.1
      · exact { h with }
  | hookExitThread => exact { h with }
  | swapRuntime hooks =>
      rw [Keeps] at hop
      cases hact : s.traceActive with
      | true =>
          obtain rfl : hooks = fun _ => none := funext (by rwa [if_pos hact] at hop)
          exact { h with }
      | false =>
          rw [if_neg (by simp [hact])] at hop
          have hend : ∀ fn, s.originalTmEnd = some fn → hooks .«end» = none := fun fn hfn =>
            hop.resolve_left (by simp [hfn])
          refine ⟨h.registered, ?_, h.cb, fun htrue => ?_, fun fn hfn => ?_, fun f => ?_, h.unset⟩
          · rw [Hooks.step, swapRuntime, h.real]
            rfl
          · cases hact.symm.trans htrue
          · rw [h.original fn hfn]
            simp [plain, Supplied.step, hact, Hooks.step, swapRuntime, hend fn hfn]
          · simp only [Hooks.step, swapRuntime, h.tm, hact]
            cases hf : hooks f with
            | none => simp [plain, Supplied.step, hf]
            | some g =>
                have hne : ¬ (f = .«end» ∧ s.originalTmEnd ≠ none) := by
                  rintro ⟨rfl, hne⟩
                  obtain ⟨fn, hfn⟩ := Option.ne_none_iff_exists'.1 hne
                  cases hf.symm.trans (hend fn hfn)
                simp [plain, Supplied.step, hf, hne]
  | registerInvariantCallback cb =>
      rw [Hooks.step, registerInvariantCallback]
      split
      · next horig =>
          have hplain : s.tm .«end» = plain s.traceActive sup .«end» := by
            simp [h.tm, Option.isNone_iff_eq_none.1 horig]
          refine { h with cb := rfl, original := ?_, tm := ?_, unset := nofun }
          · rintro fn ⟨⟩
            exact hplain
          · intro f
            by_cases hf : f = .«end»
            · simp [hf]
            · simp [hf, h.tm]
              rfl
      · next horig =>
          refine { h with cb := rfl, unset := fun hno => ?_ }
          exact absurd (Option.isNone_iff_eq_none.2 hno) horig

theorem inv_register {trace : Bool} {hooks : TMRealHooks F}
    (h : Keeps (init trace : State F C) (.registerRealHooks hooks)) :
    Inv (registerRealHooks (init trace : State F C) hooks) ⟨hooks, none⟩ := by
  refine inv_applyHooks rfl rfl rfl (fun _ => rfl) (fun hact => ?_) fun _ => rfl
  rw [Keeps, if_pos hact] at h
  refine ⟨h, nofun, fun f => ?_⟩
  obtain rfl : trace = true := hact
  simp [init]

end Invariant

def exec (s : State F C) (ops : List (Op F C)) : State F C := ops.foldl step s

def supplied (sup : Supplied F C) (ops : List (Op F C)) : Supplied F C :=
  ops.foldl Supplied.step sup

def KeepsAll (s : State F C) : List (Op F C) → Prop
  | [] => True
  | op :: ops => Keeps s op ∧ KeepsAll (step s op) ops

theorem Inv.exec {s : State F C} {sup : Supplied F C} (h : Inv s sup) (ops : List (Op F C))
    (hops : KeepsAll s ops) : Inv (exec s ops) (supplied sup ops) := by
  induction ops generalizing s sup with
  | nil => exact h
  | cons op ops ih => exact ih (h.step hops.1) hops.2

/-- After a registration and any calls that keep the table, every hook is the last function
supplied for it, under the wrappers of the trace and of the oracle. -/
theorem hooks_consistent (trace : Bool) (hooks : TMRealHooks F) (ops : List (Op F C))
    (hops : KeepsAll (init trace) (.registerRealHooks hooks :: ops)) :
    Consistent (exec (init trace) (.registerRealHooks hooks :: ops))
      (supplied ⟨hooks, none⟩ ops) :=
  ((inv_register hops.1).exec ops hops.2).consistent

/-- A thread starts, a callback is registered, and a phase switch replaces `tm_begin`. -/
def phase : List (Op ℕ Unit) :=
  [.hookInitThread, .registerInvariantCallback (some ()),
    .swapRuntime fun f => if f = .begin then some 1 else none]

theorem hooks_consistent_phase :
    Consistent (exec (init false) (.registerRealHooks (fun _ => some 0) :: phase))
      (supplied ⟨fun _ => some 0, none⟩ phase) :=
  hooks_consistent false (fun _ => some 0) phase
    ⟨by rfl, .inr (.inl rfl), trivial, .inr rfl, trivial⟩

/-- A change of the thread count after the registration of a callback takes the callback out of
`tm_end`, and a phase switch under a trace takes `tm_begin` out of the trace. -/
theorem hooks_wrappers_lost :
    let hooks : TMRealHooks ℕ := fun f => if f.access then some 0 else none
    callback (exec (init false) [.registerRealHooks hooks, .registerInvariantCallback (some ()),
        .setNumThreads 2]) .«end» = none ∧
      ¬ Logs (exec (init true : State ℕ Unit) [.registerRealHooks hooks, .swapRuntime hooks])
        .begin := by
  refine ⟨rfl, ?_⟩
  rintro ⟨g, hg⟩
  cases hg

end Hooks
