import Mathlib.Logic.Function.Basic
import GccCil.Expmed.Rtx

/-!
# Multiplication by a constant

`synth_mult` looks for a sequence of shifts and additions that multiplies by a
constant and costs less than a limit, `choose_mult_variant` tries it on the
constant and two of its neighbours, and `expand_mult_const` emits the sequence.
Costs are kept in `short`s, and a table remembers the first step that an
earlier search took for a constant.
-/

namespace GccCil.Expmed.SynthMult

structure Target where
  /-- `HOST_BITS_PER_WIDE_INT` -/
  host : Nat
  bitsPerWord : Nat
  maxBitsPerWord : Nat
  /-- `GET_MODE_BITSIZE` -/
  modeBitsize : Nat → Nat
  int_le_host : 32 ≤ host
  one_lt_word : 1 < bitsPerWord
  word_le_max : bitsPerWord ≤ maxBitsPerWord

def hostBitsPerInt : Nat := 32

/-- The operation costs that `init_expmed` computes. -/
structure Costs where
  zeroCost : Nat
  addCost : Nat → Nat
  negCost : Nat → Nat
  shiftCost : Nat → Nat → Nat
  shiftaddCost : Nat → Nat → Nat
  shiftsubCost : Nat → Nat → Nat

inductive AlgCode where
  | unknown
  | zero
  | m
  | shift
  | addTM2
  | subTM2
  | addFactor
  | subFactor
  | addT2M
  | subT2M
  | impossible
  deriving DecidableEq, Repr

/-- One entry of the arrays `op` and `log`. -/
structure Step where
  op : AlgCode
  log : Nat
  deriving DecidableEq, Repr

structure MultCost where
  cost : BitVec 16
  latency : BitVec 16
  deriving DecidableEq, Repr

/-- `struct algorithm`.  The operations are undefined, here `none`, when the
search has found nothing. -/
structure Algorithm where
  cost : MultCost
  ops : Option (List Step)
  deriving DecidableEq, Repr

def multCostLess (x : MultCost) (y : Int) : Bool :=
  x.cost.toInt < y || (x.cost.toInt == y && x.latency.toInt < y)

def cheaperMultCost (x y : MultCost) : Bool :=
  x.cost.toInt < y.cost.toInt ||
    (x.cost.toInt == y.cost.toInt && x.latency.toInt < y.latency.toInt)

def MultCost.minus (x : MultCost) (opCost opLatency : Nat) : MultCost :=
  ⟨x.cost - BitVec.ofNat 16 opCost, x.latency - BitVec.ofNat 16 opLatency⟩

def MultCost.plus (x : MultCost) (opCost opLatency : Nat) : MultCost :=
  ⟨x.cost + BitVec.ofNat 16 opCost, x.latency + BitVec.ofNat 16 opLatency⟩

structure AlgHashEntry where
  /-- an `unsigned int` -/
  t : Nat
  mode : Nat
  alg : AlgCode
  cost : MultCost

abbrev AlgHash := Nat → AlgHashEntry

def AlgHash.initial : AlgHash := fun _ => ⟨0, 0, .unknown, ⟨0, 0⟩⟩

def numAlgHashEntries : Nat := 307

inductive CacheAnswer where
  /-- the search returns without a result -/
  | giveUp
  /-- the search tries this first step only -/
  | hit (alg : AlgCode)
  | miss
  deriving DecidableEq, Repr

def consultCache (entry : AlgHashEntry) (t mode : Nat) (costLimit : MultCost) : CacheAnswer :=
  if entry.t = t ∧ entry.mode = mode ∧ entry.alg ≠ .unknown then
    if entry.alg = .impossible then
      if !cheaperMultCost entry.cost costLimit then .giveUp else .miss
    else if cheaperMultCost costLimit entry.cost then .giveUp
    else .hit entry.alg
  else .miss

/-- The variables of a search: `best_cost`, the operations of `best_alg`, the
last code written to them, and the table. -/
structure Search where
  bestCost : MultCost
  bestOps : Option (List Step)
  lastOp : AlgCode
  cache : AlgHash

/-- A recursive call of `synth_mult` in the mode of the search. -/
abbrev Recursion := Nat → MultCost → AlgHash → Option (Algorithm × AlgHash)

/-- One way of multiplying by `t`: multiply by `q` and do one more step.  In a
factor step the latency is at least the cost of the step. -/
def tryStep (synth : Recursion) (q opCost opLatency : Nat) (factor : Bool) (step : Step)
    (search : Search) : Option Search := do
  let (algIn, cache) ← synth q (search.bestCost.minus opCost opLatency) search.cache
  let added := algIn.cost.plus opCost opLatency
  let cost := if factor && added.latency.toInt < opCost then
      { added with latency := BitVec.ofNat 16 opCost }
    else added
  return if cheaperMultCost cost search.bestCost then
      ⟨cost, algIn.ops.map (· ++ [step]), step.op, cache⟩
    else { search with cache := cache }

section Steps

variable (target : Target) (costs : Costs) (mode : Nat) (synth : Recursion)

/-- `GET_MODE_MASK (mode)` applied to a `HOST_WIDE_INT`. -/
def modeMasked (t : Nat) : Nat := t % 2 ^ min (target.modeBitsize mode) target.host

def maxm : Nat := min target.bitsPerWord (target.modeBitsize mode)

/-- `exact_log2 (q & -q)`, negative for zero. -/
def lowBitLog2 (q : Nat) : Int :=
  floorLog2 (q &&& ((2 ^ target.host - q) % 2 ^ target.host))

/-- `do_alg_shift`. -/
def tryShift (t : Nat) (search : Search) : Option Search :=
  let m := (lowBitLog2 target t).toNat
  if m < maxm target mode then
    let opCost := min (m * costs.addCost mode) (costs.shiftCost mode m)
    tryStep synth (t >>> m) opCost opCost false ⟨.shift, m⟩ search
  else some search

/-- The loop that looks for the lowest zero bit of `t`; zero when `t` has none. -/
def lowestZeroBit (t : Nat) : Nat → Nat → Nat
  | 0, _ => 0
  | bits + 1, w => if w &&& t ≠ 0 then lowestZeroBit t bits (w <<< 1) else w

/-- `do_alg_addsub_t_m2`. -/
def tryAddSub (t : Nat) (search : Search) : Option Search :=
  let w := lowestZeroBit t target.host 1
  let opCost := costs.addCost mode
  if w = 0 ∨ (w > 2 ∧ t ≠ 3) then
    tryStep synth ((t + 1) % 2 ^ target.host) opCost opCost false ⟨.subTM2, 0⟩ search
  else tryStep synth (t - 1) opCost opCost false ⟨.addTM2, 0⟩ search

/-- The loop of `do_alg_addsub_factor`, from `m` down to 2: the first factor
`2 ^ m + 1` or `2 ^ m - 1` of `t`.  On a cache hit only the cached kind counts. -/
def findFactor (hit : Option AlgCode) (t : Nat) : Nat → Option Step
  | 0 => none
  | m + 1 =>
    if m + 1 < 2 then none
    else if t % (2 ^ (m + 1) + 1) = 0 ∧ t > 2 ^ (m + 1) + 1 ∧ m + 1 < maxm target mode ∧
        (hit = none ∨ hit = some .addFactor) then some ⟨.addFactor, m + 1⟩
    else if t % (2 ^ (m + 1) - 1) = 0 ∧ t > 2 ^ (m + 1) - 1 ∧ m + 1 < maxm target mode ∧
        (hit = none ∨ hit = some .subFactor) then some ⟨.subFactor, m + 1⟩
    else findFactor hit t m

/-- A factor step by `d`; `fused` is the cost of a combined shift and addition. -/
def tryFactorStep (t d fused : Nat) (step : Step) (search : Search) : Option Search :=
  let separate := costs.addCost mode + costs.shiftCost mode step.log
  if fused < separate then tryStep synth (t / d) fused fused true step search
  else tryStep synth (t / d) separate (costs.addCost mode) true step search

/-- `do_alg_addsub_factor`. -/
def tryFactor (hit : Option AlgCode) (t : Nat) (search : Search) : Option Search :=
  match findFactor target mode hit t (floorLog2 (t - 1)).toNat with
  | none => some search
  | some step =>
    if step.op = .addFactor then
      tryFactorStep costs mode synth t (2 ^ step.log + 1) (costs.shiftaddCost mode step.log)
        step search
    else
      tryFactorStep costs mode synth t (2 ^ step.log - 1) (costs.shiftsubCost mode step.log)
        step search

/-- A step that shifts the product by `q = neighbour >> m` and adds or
subtracts the multiplicand. -/
def tryT2M (neighbour : Nat) (fused : Nat → Nat) (op : AlgCode) (search : Search) :
    Option Search :=
  let m := lowBitLog2 target neighbour
  if 0 ≤ m ∧ m < maxm target mode then
    tryStep synth (neighbour >>> m.toNat) (fused m.toNat) (fused m.toNat) false ⟨op, m.toNat⟩
      search
  else some search

/-- `do_alg_add_t2_m`. -/
def tryAddT2M (t : Nat) : Search → Option Search :=
  tryT2M target mode synth (t - 1) (costs.shiftaddCost mode) .addT2M

/-- `do_alg_sub_t2_m`. -/
def trySubT2M (t : Nat) : Search → Option Search :=
  tryT2M target mode synth ((t + 1) % 2 ^ target.host) (costs.shiftsubCost mode) .subT2M

/-- The labels of the search after a cache hit; another code is unreachable. -/
def tryCached (t : Nat) (search : Search) : AlgCode → Option Search
  | .shift => tryShift target costs mode synth t search
  | .addTM2 => tryAddSub target costs mode synth t search
  | .subTM2 => tryAddSub target costs mode synth t search
  | .addFactor => tryFactor target costs mode synth (some .addFactor) t search
  | .subFactor => tryFactor target costs mode synth (some .subFactor) t search
  | .addT2M => tryAddT2M target costs mode synth t search
  | .subT2M => trySubT2M target costs mode synth t search
  | _ => none

def tryAll (t : Nat) (search : Search) : Option Search := do
  if t % 2 = 0 then
    let search ← tryShift target costs mode synth t search
    tryFactor target costs mode synth none t search
  else
    let search ← tryAddSub target costs mode synth t search
    let search ← tryFactor target costs mode synth none t search
    let search ← tryAddT2M target costs mode synth t search
    trySubT2M target costs mode synth t search

end Steps

def noAlgorithm (costLimit : MultCost) : Algorithm :=
  ⟨⟨costLimit.cost + 1, costLimit.latency + 1⟩, none⟩

def hashIndex (t mode : Nat) : Nat := (t ^^^ mode) % numAlgHashEntries

/-- From `done` on: record the result and return it. -/
def finishSearch (target : Target) (hit : Bool) (t mode : Nat) (costLimit : MultCost)
    (search : Search) : Algorithm × AlgHash :=
  if !cheaperMultCost search.bestCost costLimit then
    (noAlgorithm costLimit, Function.update search.cache (hashIndex t mode)
      ⟨t % 2 ^ hostBitsPerInt, mode, .impossible, costLimit⟩)
  else
    let cache := if hit then search.cache else
      Function.update search.cache (hashIndex t mode)
        ⟨t % 2 ^ hostBitsPerInt, mode, search.lastOp, search.bestCost⟩
    if search.bestOps.map List.length = some (target.maxBitsPerWord + 1) then
      (noAlgorithm costLimit, cache)
    else (⟨search.bestCost, search.bestOps⟩, cache)

def searchMult (target : Target) (costs : Costs) (mode : Nat) (synth : Recursion) (t : Nat)
    (costLimit : MultCost) (cache : AlgHash) : Option (Algorithm × AlgHash) :=
  match consultCache (cache (hashIndex t mode)) t mode costLimit with
  | .giveUp => some (noAlgorithm costLimit, cache)
  | .hit alg =>
    (tryCached target costs mode synth t ⟨costLimit, none, .unknown, cache⟩ alg).map
      (finishSearch target true t mode costLimit)
  | .miss =>
    (tryAll target costs mode synth t ⟨costLimit, none, .unknown, cache⟩).map
      (finishSearch target false t mode costLimit)

def hopeless (costLimit : MultCost) : Bool :=
  costLimit.cost.toInt < 0 || (costLimit.cost == 0 && costLimit.latency.toInt ≤ 0)

/-- `synth_mult` with a bound on the depth of its recursion; `none` when the
bound is too low. -/
def synthMultBounded (target : Target) (costs : Costs) (mode : Nat) : Nat → Recursion
  | 0, _, _, _ => none
  | fuel + 1, t, costLimit, cache =>
    if hopeless costLimit then some (noAlgorithm costLimit, cache)
    else
      let t := modeMasked target mode t
      if t = 1 then some (⟨⟨0, 0⟩, some [⟨.m, 0⟩]⟩, cache)
      else if t = 0 then
        if multCostLess costLimit costs.zeroCost then some (noAlgorithm costLimit, cache)
        else
          some (⟨⟨BitVec.ofNat 16 costs.zeroCost, BitVec.ofNat 16 costs.zeroCost⟩,
            some [⟨.zero, 0⟩]⟩, cache)
      else
        searchMult target costs mode (synthMultBounded target costs mode fuel) t costLimit cache

/-- `synth_mult`; the recursion is never deeper than the bound given here. -/
def synthMult (target : Target) (costs : Costs) (mode : Nat) : Recursion :=
  fun t => synthMultBounded target costs mode (3 * t + 1) t

inductive MultVariant where
  | basic
  | negate
  | add
  deriving DecidableEq, Repr

/-- One further attempt of `choose_mult_variant`, for the multiplier `t` and a
fixup of cost `opCost`. -/
def tryVariant (synth : Recursion) (multCost : Int) (t opCost : Nat) (variant : MultVariant)
    (found : (Algorithm × MultVariant) × AlgHash) :
    Option ((Algorithm × MultVariant) × AlgHash) := do
  let ((alg, chosen), cache) := found
  let limit := if multCostLess alg.cost multCost then alg.cost.minus opCost opCost
    else MultCost.minus ⟨BitVec.ofInt 16 multCost, BitVec.ofInt 16 multCost⟩ opCost opCost
  let (alg2, cache) ← synth t limit cache
  let alg2 := { alg2 with cost := alg2.cost.plus opCost opCost }
  return (if cheaperMultCost alg2.cost alg.cost then (alg2, variant) else (alg, chosen), cache)

/-- The attempt with `-val`, made in modes that fit an `unsigned int`. -/
def tryNegate (target : Target) (costs : Costs) (mode val : Nat) (multCost : Int)
    (found : (Algorithm × MultVariant) × AlgHash) :
    Option ((Algorithm × MultVariant) × AlgHash) :=
  if target.modeBitsize mode ≤ hostBitsPerInt then
    tryVariant (synthMult target costs mode) multCost
      ((2 ^ target.host - val) % 2 ^ target.host) (costs.negCost mode) .negate found
  else some found

/-- `choose_mult_variant`; `val` is the bits of the `HOST_WIDE_INT`.  The first
component of the result says whether the multiplication is cheap enough. -/
def chooseMultVariant (target : Target) (costs : Costs) (mode val : Nat) (multCost : Int)
    (cache : AlgHash) : Option (Option (Algorithm × MultVariant) × AlgHash) :=
  if multCost < 0 then some (none, cache)
  else do
    let multCost := min multCost (2 * target.modeBitsize mode * costs.addCost mode : Nat)
    let synth := synthMult target costs mode
    let (alg, cache) ← synth val ⟨BitVec.ofInt 16 multCost, BitVec.ofInt 16 multCost⟩ cache
    let found ← tryNegate target costs mode val multCost ((alg, .basic), cache)
    let found ← tryVariant synth multCost ((val + 2 ^ target.host - 1) % 2 ^ target.host)
      (costs.addCost mode) .add found
    return (if multCostLess found.1.1.cost multCost then some found.1 else none, found.2)

section Emitted

variable {size : Nat} (op0 : BitVec size)

/-- One step of the loop of `expand_mult_const`.  With `op0 = 1` it is also
what the loop does to `val_so_far`. -/
def Step.apply (accum : BitVec size) (step : Step) : Option (BitVec size) :=
  match step.op with
  | .shift => some (accum <<< step.log)
  | .addTM2 => some (accum + op0 <<< step.log)
  | .subTM2 => some (accum - op0 <<< step.log)
  | .addT2M => some (accum <<< step.log + op0)
  | .subT2M => some (accum <<< step.log - op0)
  | .addFactor => some (accum + accum <<< step.log)
  | .subFactor => some (accum <<< step.log - accum)
  | _ => none

def startAccum : AlgCode → Option (BitVec size)
  | .zero => some 0
  | .m => some op0
  | _ => none

def runSteps : List Step → Option (BitVec size)
  | [] => none
  | first :: rest => (startAccum op0 first.op).bind (rest.foldlM (Step.apply op0))

def MultVariant.fixup (variant : MultVariant) (accum : BitVec size) : BitVec size :=
  match variant with
  | .basic => accum
  | .negate => -accum
  | .add => accum + op0

end Emitted

/-- `expand_mult_const` on the bits of `val`: the value of the emitted code when
the multiplicand is `op0`; `none` where an assertion fails. -/
def expandMultConst (target : Target) (mode : Nat) (op0 : BitVec (target.modeBitsize mode))
    (val : Nat) (ops : List Step) (variant : MultVariant) :
    Option (BitVec (target.modeBitsize mode)) := do
  let accum ← runSteps op0 ops
  let valSoFar ← runSteps (1 : BitVec target.host) ops
  if modeMasked target mode val = modeMasked target mode (variant.fixup 1 valSoFar).toNat then
    some (variant.fixup op0 accum)
  else none

end GccCil.Expmed.SynthMult
