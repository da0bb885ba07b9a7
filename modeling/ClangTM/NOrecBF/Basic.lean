import ClangTM.BloomFilter
import ClangTM.NOrec.Basic
import ClangTM.Transition.Threads

/-!
# The NOrec backend with Bloom filters

NOrec-BF is NOrec with two filters. A transaction inserts the words it has read into `read_bf`,
and a writer inserts, under the global lock, the words it has written into the global filter
`g_gc`. A validation that finds the two filters disjoint, and that the global filter has not
been rebuilt since the transaction began (the generation `g_gc_gen` is the one that `begin`
has loaded), returns without looking at memory again. A writer that finds more than half of
the bits of the filter set increments the generation and clears the filter.

A step is one access to `global_lock`, `g_gc_gen`, one word of `g_gc` or memory, together with
the local work up to the next one. The entries of the read set and the callers of `validate`
are those of NOrec. The fields `ops` of a transaction and `writers`, `log`, `ro` and `rebuilt`
of the shared state record what happened and are not read by any step; `rebuilt` is the number
of writers at the last increment of the generation.
-/

namespace NOrecBF

open Serial Transition NOrec BloomFilter

def kBloomWords : ℕ := 64

inductive Pc
  | out
  /-- `begin`: the loads of `global_lock` and of `g_gc_gen`. -/
  | beginClock
  | beginGen
  | body
  /-- `read_word_norec`: as in NOrec. -/
  | readClock (a : WordAddr)
  | readValue (a : WordAddr) (clockBefore : Word)
  | readClockAfter (a : WordAddr) (clockBefore value : Word)
  | readCheck (a : WordAddr) (value : Word)
  | readAgain (a : WordAddr)
  /-- `validate`: the load of `time`. -/
  | validateClock (k : Caller)
  /-- `validate`: the load of the generation. -/
  | validateGen (k : Caller) (time : Word)
  /-- `validate`: the load of word `i` of the global filter. -/
  | validateFilter (k : Caller) (time : Word) (i : ℕ)
  /-- `validate`: the load that is compared with `time` on the fast path. -/
  | validateFast (k : Caller) (time : Word)
  /-- `validate`: the entries still to compare, as in NOrec. -/
  | validateEntries (k : Caller) (time : Word) (rest : List ReadLogEntry)
  /-- `commit`: the compare-and-swap. -/
  | commitCas
  /-- `commit`: the words still to write back. -/
  | writeBack (rest : List (WordAddr × Word))
  /-- `commit`: the words still to insert into the global filter, at the first and at the
  second hash. -/
  | insertFirst (rest : List (WordAddr × Word))
  | insertSecond (rest : List (WordAddr × Word))
  /-- `commit`: the load of word `i`, with `n` bits set in the words before it. -/
  | popcount (i n : ℕ)
  /-- `commit`: the increment of the generation. -/
  | bumpGen
  /-- `commit`: the store of 0 to word `i`. -/
  | clear (i : ℕ)
  /-- `commit`: the store that releases the lock. -/
  | release
deriving DecidableEq

structure Tx where
  pc : Pc := .out
  snapshot : Word := 0
  active : Bool := false
  readOnly : Bool := true
  readSet : List ReadLogEntry := []
  writeSet : List (WordAddr × Word) := []
  readBf : BloomFilter := fun _ => 0
  gen : Word := 0
  ops : Trace WordAddr Word := []

structure Shared where
  globalLock : Word := 0
  gGcGen : Word := 0
  gGc : BloomFilter := fun _ => 0
  mem : WordAddr → Word
  writers : ℕ := 0
  log : ℕ → Option (Trace WordAddr Word) := fun _ => none
  ro : List (ℕ × Trace WordAddr Word) := []
  rebuilt : ℕ := 0

def key (a : WordAddr) : Word := BitVec.ofNat 64 a.val

namespace Tx

variable (x : Tx)

/-- `abort_tx`: the logs and the filter are cleared; the generation stays. -/
def abortTx : Tx :=
  { x with pc := .out, readSet := [], writeSet := [], readBf := fun _ => 0, ops := [] }

/-- One turn of the loop of `begin`, and what follows it up to the load of the
generation. -/
def begin (clock : Word) : Tx :=
  if isOdd clock then { x with snapshot := clock }
  else { pc := .beginGen, snapshot := clock, active := true, gen := x.gen }

def readWordNorec (a : WordAddr) : Tx :=
  match x.writeSet.lookup a with
  | some v => { x with ops := .read a v :: x.ops }
  | none => { x with pc := .readClock a }

def pushRead (a : WordAddr) (v : Word) : Tx :=
  { x with
    pc := .body
    readSet := ⟨a, v, x.snapshot⟩ :: x.readSet
    readBf := insert kBloomWords x.readBf (key a)
    ops := .read a v :: x.ops }

/-- `write_word_norec`: an address with one of its upper 17 bits set is skipped. -/
def writeWordNorec (a : WordAddr) (v : Word) : Tx :=
  if a.val >>> 47 ≠ 0 then { x with ops := .write a v :: x.ops }
  else
    { x with
      readOnly := false
      writeSet := putFront a v x.writeSet
      ops := .write a v :: x.ops }

/-- `validate` returns `time`, which its callers store in `snapshot`. -/
def validated (k : Caller) (time : Word) : Tx :=
  match k with
  | .readWord a => { x with pc := .readAgain a, snapshot := time }
  | .commit => { x with pc := .commitCas, snapshot := time }

def validateTime (k : Caller) (clock : Word) : Tx :=
  if isOdd clock then { x with pc := .validateClock k }
  else if x.readSet = [] then x.validated k clock
  else { x with pc := .validateGen k clock }

def validateExact (k : Caller) (time : Word) : Tx :=
  { x with pc := .validateEntries k time x.readSet.reverse }

/-- `disjoint_with` after the load of word `i` of the global filter. -/
def validateWord (k : Caller) (time : Word) (i : ℕ) (w : Word) : Tx :=
  if x.readBf i &&& w ≠ 0 then x.validateExact k time
  else { x with pc := if i + 1 < kBloomWords then .validateFilter k time (i + 1)
                      else .validateFast k time }

def insertFrom (rest : List (WordAddr × Word)) : Tx :=
  { x with pc := if rest = [] then .popcount 0 0 else .insertFirst rest }

def writeBackFrom (rest : List (WordAddr × Word)) : Tx :=
  if rest = [] then x.insertFrom x.writeSet.reverse else { x with pc := .writeBack rest }

/-- `popcount` after the load of word `i`, and the decision on a rebuild. -/
def counted (i n : ℕ) : Tx :=
  { x with pc := if i + 1 < kBloomWords then .popcount (i + 1) n
                 else if kBloomWords * 64 / 2 < n then .bumpGen else .release }

end Tx

section Step

variable (σ : Shared) (x : Tx)

def acquire : Shared :=
  { σ with
    globalLock := x.snapshot + 1
    writers := σ.writers + 1
    log := enter σ.log (σ.writers + 1) x.ops }

def access : Option (Shared × Tx) :=
  match x.pc with
  | .out => none
  | .body => none
  | .beginClock => some (σ, x.begin σ.globalLock)
  | .beginGen => some (σ, { x with pc := .body, gen := σ.gGcGen })
  | .readClock a =>
      some (σ, { x with
        pc := if isOdd σ.globalLock then .readClock a else .readValue a σ.globalLock })
  | .readValue a clockBefore =>
      some (σ, { x with pc := .readClockAfter a clockBefore (σ.mem a) })
  | .readClockAfter a clockBefore value =>
      some (σ, { x with
        pc := if σ.globalLock = clockBefore then .readCheck a value else .readClock a })
  | .readCheck a value =>
      some (σ, if x.snapshot = σ.globalLock then x.pushRead a value
        else { x with pc := .validateClock (.readWord a) })
  | .readAgain a =>
      some (σ, if x.readSet.length > NOrec.Tx.readSetLimit then x.abortTx
        else { x with pc := .readCheck a (σ.mem a) })
  | .validateClock k => some (σ, x.validateTime k σ.globalLock)
  | .validateGen k time =>
      some (σ, if x.gen = σ.gGcGen then { x with pc := .validateFilter k time 0 }
        else x.validateExact k time)
  | .validateFilter k time i => some (σ, x.validateWord k time i (σ.gGc i))
  | .validateFast k time =>
      some (σ, if time = σ.globalLock then x.validated k time
        else { x with pc := .validateClock k })
  | .validateEntries k time (r :: rest) =>
      some (σ, if σ.mem r.addr = r.observedVal then { x with pc := .validateEntries k time rest }
        else x.abortTx)
  | .validateEntries k time [] =>
      some (σ, if time = σ.globalLock then x.validated k time
        else { x with pc := .validateClock k })
  | .commitCas =>
      some (if σ.globalLock = x.snapshot then (acquire σ x, x.writeBackFrom x.writeSet.reverse)
        else (σ, { x with pc := .validateClock .commit }))
  | .writeBack rest =>
      rest.head?.map fun w =>
        ({ σ with mem := Function.update σ.mem w.1 w.2 }, x.writeBackFrom rest.tail)
  | .insertFirst rest =>
      rest.head?.map fun w =>
        ({ σ with gGc := orWord kBloomWords σ.gGc (firstHash (key w.1)) },
          { x with pc := .insertSecond rest })
  | .insertSecond rest =>
      rest.head?.map fun w =>
        ({ σ with gGc := orWord kBloomWords σ.gGc (secondHash (key w.1)) },
          x.insertFrom rest.tail)
  | .popcount i n => some (σ, x.counted i (n + popcountWord (σ.gGc i)))
  | .bumpGen =>
      some ({ σ with gGcGen := σ.gGcGen + 1, rebuilt := σ.writers }, { x with pc := .clear 0 })
  | .clear i =>
      some ({ σ with gGc := Function.update σ.gGc i 0 },
        { x with pc := if i + 1 < kBloomWords then .clear (i + 1) else .release })
  | .release => some ({ σ with globalLock := x.snapshot + 2 }, {})

def next (_ : ℕ) (c : TxCall) : Option (Shared × Tx) :=
  match c with
  | .tau => access σ x
  | .begin =>
      match x.pc with
      | .out => some (σ, { x with pc := .beginClock })
      | _ => none
  | .read a =>
      match x.pc with
      | .body => some (σ, x.readWordNorec a)
      | _ => none
  | .write a v =>
      match x.pc with
      | .body => some (σ, x.writeWordNorec a v)
      | _ => none
  | .commit =>
      match x.pc with
      | .body =>
          some (if x.readOnly then
              ({ σ with ro := (x.snapshot.toNat / 2, x.ops) :: σ.ro }, {})
            else (σ, { x with pc := .commitCas }))
      | _ => none
  | .abort =>
      match x.pc with
      | .body => some (σ, x.abortTx)
      | _ => none

end Step

def step : Threads Shared Tx ℕ → ℕ × TxCall → Option (Threads Shared Tx ℕ) :=
  Threads.step fun t σ x => next σ x t

def init (m₀ : WordAddr → Word) : Threads Shared Tx ℕ where
  shared := { mem := m₀ }
  tx _ := {}

end NOrecBF
