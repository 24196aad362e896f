import Mathlib.Data.BitVec
import Mathlib.Data.Int.ModEq
import Mathlib.Tactic.Ring
import GccCil.Lib.LowestBit
import GccCil.Expmed.SynthMult

/-!
# The synthesized multiplications are correct

Every step that a search records is correct by itself, whatever the table says,
so a result with operations multiplies by the wanted constant.  A result
without operations costs one more than the limit, in the arithmetic of
`short`: below the limit only where that wraps.  And where the mode is wider
than `HOST_WIDE_INT`, the step to `t + 1` is wrong for the largest `t`.
-/

namespace GccCil.Expmed.SynthMult

def Step.scale (c : Int) (step : Step) : Option Int :=
  match step.op with
  | .shift => some (c * 2 ^ step.log)
  | .addTM2 => some (c + 2 ^ step.log)
  | .subTM2 => some (c - 2 ^ step.log)
  | .addT2M => some (c * 2 ^ step.log + 1)
  | .subT2M => some (c * 2 ^ step.log - 1)
  | .addFactor => some (c + c * 2 ^ step.log)
  | .subFactor => some (c * 2 ^ step.log - c)
  | _ => none

def startCoefficient : AlgCode → Option Int
  | .zero => some 0
  | .m => some 1
  | _ => none

def coefficient : List Step → Option Int
  | [] => none
  | first :: rest => (startCoefficient first.op).bind (rest.foldlM Step.scale)

theorem coefficient_append {ops : List Step} {c : Int} (known : coefficient ops = some c)
    (step : Step) : coefficient (ops ++ [step]) = step.scale c := by
  cases ops with
  | nil => cases known
  | cons first rest =>
    obtain ⟨start, started, ran⟩ := Option.bind_eq_some_iff.mp known
    simp only [coefficient, List.cons_append, started, Option.bind_some, List.foldlM_append, ran]
    simp

section Run

variable {size : Nat} (op0 : BitVec size)

theorem shiftLeft_eq_mul (accum : BitVec size) (count : Nat) :
    accum <<< count = accum * 2 ^ count := by
  have power : (2 : BitVec size) ^ count = BitVec.ofNat size (2 ^ count) := by
    rw [← BitVec.natCast_eq_ofNat, Nat.cast_pow]
    rfl
  apply BitVec.eq_of_toNat_eq
  rw [power, BitVec.toNat_shiftLeft, Nat.shiftLeft_eq, BitVec.toNat_mul, BitVec.toNat_ofNat,
    Nat.mul_mod_mod]

theorem Step.apply_mul {c c' : Int} {step : Step} (scaled : step.scale c = some c') :
    step.apply op0 (c * op0) = some (c' * op0) := by
  cases code : step.op <;> rw [Step.scale, code] at scaled <;> cases scaled <;>
    rw [Step.apply, code] <;> simp only [shiftLeft_eq_mul] <;> push_cast <;> congr 1 <;> ring

theorem foldlM_apply_mul {steps : List Step} {c c' : Int}
    (scaled : steps.foldlM Step.scale c = some c') :
    steps.foldlM (Step.apply op0) (c * op0) = some (c' * op0) := by
  induction steps generalizing c with
  | nil =>
    obtain rfl := Option.some.inj scaled
    rfl
  | cons step rest ih =>
    obtain ⟨middle, first, last⟩ := Option.bind_eq_some_iff.mp scaled
    rw [List.foldlM_cons, Step.apply_mul op0 first]
    exact ih last

theorem runSteps_eq_mul {ops : List Step} {c : Int} (known : coefficient ops = some c) :
    runSteps op0 ops = some (c * op0) := by
  cases ops with
  | nil => cases known
  | cons first rest =>
    obtain ⟨start, started, ran⟩ := Option.bind_eq_some_iff.mp known
    have same : startAccum op0 first.op = some (start * op0) := by
      cases code : first.op <;> rw [code] at started <;> cases started <;> simp [startAccum]
    rw [runSteps, same, Option.bind_some]
    exact foldlM_apply_mul op0 ran

end Run

section Search

variable (target : Target) (mode : Nat)

/-- The step to `t + 1` does not overflow in a mode that would notice. -/
def Representable (t : Nat) : Prop :=
  target.modeBitsize mode ≤ target.host ∨ t ≠ 2 ^ target.host - 1

/-- The operations have a constant, and under the condition `able` it is `t` in the mode. -/
def Multiplies (able : Prop) (t : Nat) (ops : List Step) : Prop :=
  ∃ c, coefficient ops = some c ∧ (able → c ≡ t [ZMOD 2 ^ target.modeBitsize mode])

/-- A first step that a search for `t` can record. -/
def FitsParity (t : Nat) : AlgCode → Prop
  | .shift => t % 2 = 0
  | .addTM2 => t % 2 = 1
  | .subTM2 => t % 2 = 1
  | .addT2M => t % 2 = 1
  | .subT2M => t % 2 = 1
  | .zero => False
  | .m => False
  | _ => True

def CacheFits (cache : AlgHash) : Prop := ∀ index, FitsParity (cache index).t (cache index).alg

/-- What a call of `synth_mult` leaves: an algorithm for `t`, or no operations
and a cost of one above the limit, computed in 16 bits. -/
def Answers (able : Prop) (t : Nat) (costLimit : MultCost) (alg : Algorithm) : Prop :=
  (∃ ops, alg.ops = some ops ∧ Multiplies target mode able t ops) ∨
    (alg.ops = none ∧ alg.cost.cost = costLimit.cost + 1)

/-- A call answers for the multiplier `q`, whatever the limit and the table. -/
def AnswersFor (synth : Recursion) (q : Nat) : Prop :=
  ∀ costLimit cache, CacheFits cache → ∃ alg cache', synth q costLimit cache = some (alg, cache') ∧
    CacheFits cache' ∧ Answers target mode (Representable target mode q) q costLimit alg

structure SearchFits (able : Prop) (t : Nat) (costLimit : MultCost) (search : Search) : Prop where
  cache : CacheFits search.cache
  lastOp : FitsParity t search.lastOp
  cost_le : search.bestCost.cost.toInt ≤ costLimit.cost.toInt
  best : (∃ ops, search.bestOps = some ops ∧ Multiplies target mode able t ops) ∨
    (search.bestOps = none ∧
      (search.bestCost = costLimit ∨ search.bestCost.cost = costLimit.cost + 1))

end Search

theorem toInt_succ {cost : BitVec 16} (below : cost ≠ 32767) :
    (cost + 1).toInt = cost.toInt + 1 := by
  have notMax : cost.toNat ≠ 32767 := fun same => below (BitVec.eq_of_toNat_eq same)
  have bound := cost.isLt
  have one : (1 : BitVec 16).toNat = 1 := rfl
  rw [BitVec.toInt_eq_toNat_cond, BitVec.toInt_eq_toNat_cond, BitVec.toNat_add, one]
  split <;> split <;> omega

theorem toInt_le_of_cheaper {x y : MultCost} (cheaper : cheaperMultCost x y = true) :
    x.cost.toInt ≤ y.cost.toInt := by
  simp only [cheaperMultCost, Bool.or_eq_true, Bool.and_eq_true, decide_eq_true_eq,
    beq_iff_eq] at cheaper
  omega

theorem not_cheaper_self (x : MultCost) : cheaperMultCost x x = false := by
  simp [cheaperMultCost]

section Steps

variable {target : Target} {mode : Nat} {synth : Recursion} {able : Prop} {t : Nat}
  {costLimit : MultCost} {search : Search}

theorem tryStep_eq {q opCost opLatency : Nat} {algIn : Algorithm} {cache : AlgHash}
    (factor : Bool) (step : Step)
    (returned : synth q (search.bestCost.minus opCost opLatency) search.cache =
      some (algIn, cache)) :
    ∃ cost : MultCost, cost.cost = algIn.cost.cost + BitVec.ofNat 16 opCost ∧
      tryStep synth q opCost opLatency factor step search =
        some (if cheaperMultCost cost search.bestCost then
          ⟨cost, algIn.ops.map (· ++ [step]), step.op, cache⟩
        else { search with cache := cache }) := by
  simp only [tryStep, returned, Option.bind_eq_bind, Option.bind_some]
  refine ⟨_, ?_, rfl⟩
  split <;> rfl

theorem tryStep_fits {q opCost opLatency : Nat} {factor : Bool} {step : Step}
    (answers : AnswersFor target mode synth q) (fits : FitsParity t step.op)
    (right : ∀ c, ∃ c', step.scale c = some c' ∧ (able →
      Representable target mode q ∧ (c ≡ q [ZMOD 2 ^ target.modeBitsize mode] →
        c' ≡ t [ZMOD 2 ^ target.modeBitsize mode])))
    (before : SearchFits target mode able t costLimit search) :
    ∃ after, tryStep synth q opCost opLatency factor step search = some after ∧
      SearchFits target mode able t costLimit after := by
  obtain ⟨algIn, cache, returned, cacheFits, answer⟩ :=
    answers (search.bestCost.minus opCost opLatency) search.cache before.cache
  obtain ⟨cost, cost_eq, tried⟩ := tryStep_eq factor step returned
  refine ⟨_, tried, ?_⟩
  split
  · rename_i cheaper
    have le := toInt_le_of_cheaper cheaper
    refine ⟨cacheFits, fits, Int.le_trans le before.cost_le, ?_⟩
    obtain ⟨ops, found, c, known, multiplies⟩ | ⟨nothing, failed⟩ := answer
    · obtain ⟨c', scaled, product⟩ := right c
      refine .inl ⟨ops ++ [step], by simp [found], c', ?_, fun holds => ?_⟩
      · rw [coefficient_append known, scaled]
      · obtain ⟨subRepresentable, carries⟩ := product holds
        exact carries (multiplies subRepresentable)
    · -- a failed call is cheaper only where the limit is the largest `short`
      have next : cost.cost = search.bestCost.cost + 1 := by
        rw [cost_eq, failed, MultCost.minus]
        ring
      have largest : search.bestCost.cost = 32767 := by
        by_contra below
        rw [next, toInt_succ below] at le
        omega
      have limit_eq : costLimit.cost = search.bestCost.cost := by
        have le_limit := before.cost_le
        have limit_lt := BitVec.toInt_lt (x := costLimit.cost)
        have value : search.bestCost.cost.toInt = 32767 := by
          rw [largest]
          rfl
        apply BitVec.eq_of_toInt_eq
        omega
      exact .inr ⟨by simp [nothing], .inr (by rw [next, limit_eq])⟩
  · exact ⟨cacheFits, before.lastOp, before.cost_le, before.best⟩

def weight (t : Nat) : Nat := if t % 2 = 0 then 2 * t else 3 * t

structure Searched (target : Target) (mode t : Nat) : Prop where
  two_le : 2 ≤ t
  lt : t < 2 ^ min (target.modeBitsize mode) target.host

theorem Searched.lt_host (searched : Searched target mode t) : t < 2 ^ target.host :=
  Nat.lt_of_lt_of_le searched.lt (Nat.pow_le_pow_right (by decide) (Nat.min_le_right _ _))

theorem Searched.masked_eq {q : Nat} (searched : Searched target mode t) (le : q ≤ t) :
    modeMasked target mode q = q :=
  Nat.mod_eq_of_lt (Nat.lt_of_le_of_lt le searched.lt)

def AnswersBelow (target : Target) (mode : Nat) (synth : Recursion) (bound : Nat) : Prop :=
  ∀ q, q < 2 ^ target.host → weight (modeMasked target mode q) < bound →
    AnswersFor target mode synth q

theorem AnswersBelow.half {q : Nat} (answers : AnswersBelow target mode synth (weight t))
    (searched : Searched target mode t) (half : 2 * q ≤ t + 1) :
    AnswersFor target mode synth q ∧ Representable target mode q := by
  have two_le := searched.two_le
  have bound := searched.lt_host
  refine ⟨answers q (by omega) ?_, .inr (by omega)⟩
  rw [searched.masked_eq (by omega)]
  unfold weight
  split <;> split <;> omega

theorem lowBitLog2_spec {x : Nat} (nonzero : x ≠ 0) (fits : x < 2 ^ target.host) :
    ∃ k j, lowBitLog2 target x = (k : Nat) ∧ x = 2 ^ k * (2 * j + 1) := by
  obtain ⟨k, j, product, lowest⟩ := Lib.exists_and_negation nonzero fits
  refine ⟨k, j, ?_, product⟩
  have wrapped : (2 ^ target.host - x) % 2 ^ target.host = 2 ^ target.host - x :=
    Nat.mod_eq_of_lt (by omega)
  rw [lowBitLog2, wrapped, lowest, floorLog2, if_neg (Nat.two_pow_pos k).ne', Nat.log2_two_pow]

theorem lowBitLog2_even {x : Nat} (nonzero : x ≠ 0) (fits : x < 2 ^ target.host)
    (even : x % 2 = 0) :
    ∃ k q, lowBitLog2 target x = (k : Nat) ∧ x >>> k = q ∧ x = q * 2 ^ k ∧ 2 * q ≤ x := by
  obtain ⟨k, j, log_eq, product⟩ := lowBitLog2_spec nonzero fits
  have positive : 0 < k := by
    rcases Nat.eq_zero_or_pos k with rfl | positive
    · omega
    · exact positive
  refine ⟨k, 2 * j + 1, log_eq, ?_, by rw [product, Nat.mul_comm], ?_⟩
  · rw [Nat.shiftRight_eq_div_pow, product, Nat.mul_div_cancel_left _ (Nat.two_pow_pos k)]
  · calc 2 * (2 * j + 1) = 2 ^ 1 * (2 * j + 1) := by rw [Nat.pow_one]
      _ ≤ 2 ^ k * (2 * j + 1) := Nat.mul_le_mul_right _ (Nat.pow_le_pow_right (by decide) positive)
      _ = x := product.symm

theorem shift_fits (answers : AnswersBelow target mode synth (weight t))
    (searched : Searched target mode t) (even : t % 2 = 0) (costs : Costs)
    (before : SearchFits target mode able t costLimit search) :
    ∃ after, tryShift target costs mode synth t search = some after ∧
      SearchFits target mode able t costLimit after := by
  have two_le := searched.two_le
  obtain ⟨k, q, log_eq, quotient, product, half⟩ :=
    lowBitLog2_even (by omega) searched.lt_host even
  obtain ⟨answersFor, representable⟩ := answers.half searched (Nat.le_succ_of_le half)
  simp only [tryShift, log_eq, Int.toNat_natCast, quotient]
  split
  · refine tryStep_fits answersFor even (fun c => ?_) before
    refine ⟨_, rfl, fun _ => ⟨representable, fun known => ?_⟩⟩
    rw [product]
    push_cast
    exact known.mul_right _
  · exact ⟨search, rfl, before⟩

theorem factorStep_fits {d fused : Nat} {step : Step} (costs : Costs)
    (answers : AnswersBelow target mode synth (weight t)) (searched : Searched target mode t)
    (divides : t % d = 0) (three_le : 3 ≤ d) (fits : FitsParity t step.op)
    (scales : ∀ c, step.scale c = some (c * d))
    (before : SearchFits target mode able t costLimit search) :
    ∃ after, tryFactorStep costs mode synth t d fused step search = some after ∧
      SearchFits target mode able t costLimit after := by
  have product : t = t / d * d := (Nat.div_mul_cancel (Nat.dvd_of_mod_eq_zero divides)).symm
  have half : 2 * (t / d) ≤ t + 1 := by
    have := Nat.mul_le_mul_left (t / d) three_le
    omega
  obtain ⟨answersFor, representable⟩ := answers.half searched half
  have right : ∀ c, ∃ c', step.scale c = some c' ∧ (able →
      Representable target mode (t / d) ∧
        (c ≡ (t / d : Nat) [ZMOD 2 ^ target.modeBitsize mode] →
          c' ≡ t [ZMOD 2 ^ target.modeBitsize mode])) := by
    intro c
    refine ⟨_, scales c, fun _ => ⟨representable, fun known => ?_⟩⟩
    have scaled := known.mul_right (d : Int)
    rwa [← Nat.cast_mul, ← product] at scaled
  simp only [tryFactorStep]
  split
  · exact tryStep_fits answersFor fits right before
  · exact tryStep_fits answersFor fits right before

theorem findFactor_spec {hit : Option AlgCode} {m : Nat} {step : Step}
    (found : findFactor target mode hit t m = some step) :
    2 ≤ step.log ∧
      ((step.op = .addFactor ∧ t % (2 ^ step.log + 1) = 0) ∨
        (step.op = .subFactor ∧ t % (2 ^ step.log - 1) = 0)) := by
  induction m with
  | zero => cases found
  | succ m ih =>
    simp only [findFactor] at found
    split at found
    · cases found
    · split at found
      · rename_i large divides
        obtain rfl := Option.some.inj found
        exact ⟨Nat.not_lt.mp large, .inl ⟨rfl, divides.1⟩⟩
      · split at found
        · rename_i large _ divides
          obtain rfl := Option.some.inj found
          exact ⟨Nat.not_lt.mp large, .inr ⟨rfl, divides.1⟩⟩
        · exact ih found

theorem factor_fits (answers : AnswersBelow target mode synth (weight t))
    (searched : Searched target mode t) (hit : Option AlgCode) (costs : Costs)
    (before : SearchFits target mode able t costLimit search) :
    ∃ after, tryFactor target costs mode synth hit t search = some after ∧
      SearchFits target mode able t costLimit after := by
  unfold tryFactor
  split
  · exact ⟨search, rfl, before⟩
  · rename_i step found
    obtain ⟨log_le, ⟨op_eq, divides⟩ | ⟨op_eq, divides⟩⟩ := findFactor_spec found
    · have power : 2 ^ 2 ≤ 2 ^ step.log := Nat.pow_le_pow_right (by decide) log_le
      rw [if_pos op_eq]
      refine factorStep_fits costs answers searched divides (by omega) (by simp [op_eq, FitsParity])
        (fun c => ?_) before
      simp only [Step.scale, op_eq]
      push_cast
      rw [mul_add, mul_one, add_comm]
    · have power : 2 ^ 2 ≤ 2 ^ step.log := Nat.pow_le_pow_right (by decide) log_le
      rw [if_neg (by simp [op_eq])]
      refine factorStep_fits costs answers searched divides (by omega) (by simp [op_eq, FitsParity])
        (fun c => ?_) before
      simp only [Step.scale, op_eq]
      rw [Nat.cast_sub (Nat.one_le_two_pow)]
      push_cast
      rw [mul_sub, mul_one]

theorem host_mask_odd (target : Target) : (2 ^ target.host - 1) % 2 = 1 := by
  have wide := target.int_le_host
  obtain ⟨k, host_eq⟩ : ∃ k, target.host = k + 1 := ⟨target.host - 1, by omega⟩
  have positive := Nat.two_pow_pos k
  rw [host_eq, Nat.pow_succ]
  omega

theorem succ_wrapped (searched : Searched target mode t) :
    ((t + 1) % 2 ^ target.host = t + 1 ∧ t + 1 < 2 ^ target.host) ∨
      ((t + 1) % 2 ^ target.host = 0 ∧ t = 2 ^ target.host - 1) := by
  have bound := searched.lt_host
  rcases Nat.lt_or_ge (t + 1) (2 ^ target.host) with below | above
  · exact .inl ⟨Nat.mod_eq_of_lt below, below⟩
  · have same : t + 1 = 2 ^ target.host := by omega
    exact .inr ⟨by rw [same, Nat.mod_self], by omega⟩

theorem succ_modEq (searched : Searched target mode t) (representable : Representable target mode t) :
    (((t + 1) % 2 ^ target.host : Nat) : Int) ≡ t + 1 [ZMOD 2 ^ target.modeBitsize mode] := by
  obtain ⟨same, -⟩ | ⟨wrapped, largest⟩ := succ_wrapped searched
  · rw [same]
    push_cast
    rfl
  · have narrow : target.modeBitsize mode ≤ target.host :=
      representable.resolve_right fun different => different largest
    have whole : (t : Int) + 1 = 2 ^ target.host := by
      have positive := Nat.two_pow_pos target.host
      have next : t + 1 = 2 ^ target.host := by omega
      exact_mod_cast next
    rw [wrapped, whole, Int.modEq_iff_dvd]
    simpa using pow_dvd_pow (2 : Int) narrow

theorem addSub_fits (answers : AnswersBelow target mode synth (weight t))
    (searched : Searched target mode t) (odd : t % 2 = 1) (costs : Costs)
    (representable : able → Representable target mode t)
    (before : SearchFits target mode able t costLimit search) :
    ∃ after, tryAddSub target costs mode synth t search = some after ∧
      SearchFits target mode able t costLimit after := by
  have two_le := searched.two_le
  have bound := searched.lt_host
  have maskOdd := host_mask_odd target
  have heavy : weight t = 3 * t := if_neg (by omega)
  simp only [tryAddSub]
  split
  · have answersFor : AnswersFor target mode synth ((t + 1) % 2 ^ target.host) := by
      apply answers _ (Nat.mod_lt _ (Nat.two_pow_pos _))
      rw [modeMasked, Nat.mod_mod_of_dvd _ (Nat.pow_dvd_pow 2 (Nat.min_le_right _ _)), heavy]
      have limit := searched.lt
      rcases Nat.lt_or_ge (t + 1) (2 ^ min (target.modeBitsize mode) target.host) with below | above
      · rw [Nat.mod_eq_of_lt below, weight, if_pos (by omega)]
        omega
      · have same : t + 1 = 2 ^ min (target.modeBitsize mode) target.host := by omega
        rw [same, Nat.mod_self, weight, if_pos rfl]
        omega
    refine tryStep_fits answersFor odd (fun c => ?_) before
    refine ⟨_, rfl, fun holds => ⟨.inr ?_, fun known => ?_⟩⟩
    · obtain ⟨same, -⟩ | ⟨wrapped, -⟩ := succ_wrapped searched <;> omega
    · have next := (known.trans (succ_modEq searched (representable holds))).sub_right 1
      simpa using next
  · have answersFor : AnswersFor target mode synth (t - 1) := by
      apply answers _ (by omega)
      rw [searched.masked_eq (by omega), heavy, weight, if_pos (by omega)]
      omega
    refine tryStep_fits answersFor odd (fun c => ?_) before
    refine ⟨_, rfl, fun _ => ⟨.inr (by omega), fun known => ?_⟩⟩
    have next := known.add_right 1
    rw [Nat.cast_sub (by omega)] at next
    simpa using next

theorem t2m_fits {neighbour : Nat} {fused : Nat → Nat} {op : AlgCode}
    (answers : AnswersBelow target mode synth (weight t)) (searched : Searched target mode t)
    (nonzero : neighbour ≠ 0) (fits : neighbour < 2 ^ target.host) (le : neighbour ≤ t + 1)
    (even : neighbour % 2 = 0) (parity : FitsParity t op)
    (right : ∀ (log : Nat) (c : Int), ∃ c', Step.scale c ⟨op, log⟩ = some c' ∧
      (able →
        c * 2 ^ log ≡ neighbour [ZMOD 2 ^ target.modeBitsize mode] →
          c' ≡ t [ZMOD 2 ^ target.modeBitsize mode]))
    (before : SearchFits target mode able t costLimit search) :
    ∃ after, tryT2M target mode synth neighbour fused op search = some after ∧
      SearchFits target mode able t costLimit after := by
  obtain ⟨k, q, log_eq, quotient, product, half⟩ := lowBitLog2_even nonzero fits even
  obtain ⟨answersFor, representable⟩ := answers.half searched (Nat.le_trans half le)
  simp only [tryT2M, log_eq, Int.toNat_natCast, quotient]
  split
  · refine tryStep_fits answersFor parity (fun c => ?_) before
    obtain ⟨c', scaled, carries⟩ := right k c
    refine ⟨c', scaled, fun holds => ⟨representable, fun known => carries holds ?_⟩⟩
    rw [product]
    push_cast
    exact known.mul_right _
  · exact ⟨search, rfl, before⟩

theorem addT2M_fits (answers : AnswersBelow target mode synth (weight t))
    (searched : Searched target mode t) (odd : t % 2 = 1) (costs : Costs)
    (before : SearchFits target mode able t costLimit search) :
    ∃ after, tryAddT2M target costs mode synth t search = some after ∧
      SearchFits target mode able t costLimit after := by
  have two_le := searched.two_le
  have bound := searched.lt_host
  refine t2m_fits answers searched (by omega) (by omega) (by omega) (by omega) odd
    (fun log c => ⟨_, rfl, fun _ known => ?_⟩) before
  have next := known.add_right 1
  rw [Nat.cast_sub (by omega)] at next
  simpa using next

theorem subT2M_fits (answers : AnswersBelow target mode synth (weight t))
    (searched : Searched target mode t) (odd : t % 2 = 1) (costs : Costs)
    (before : SearchFits target mode able t costLimit search) :
    ∃ after, trySubT2M target costs mode synth t search = some after ∧
      SearchFits target mode able t costLimit after := by
  obtain ⟨same, below⟩ | ⟨wrapped, -⟩ := succ_wrapped searched
  · refine t2m_fits answers searched (by omega) (by omega) (by omega) (by omega) odd
      (fun log c => ⟨_, rfl, fun _ known => ?_⟩) before
    have next := known.sub_right 1
    rw [same, Nat.cast_add] at next
    simpa using next
  · -- the lowest bit of zero has no logarithm
    refine ⟨search, ?_, before⟩
    simp [trySubT2M, tryT2M, wrapped, lowBitLog2, floorLog2]

theorem cached_fits {alg : AlgCode} (answers : AnswersBelow target mode synth (weight t))
    (searched : Searched target mode t) (parity : FitsParity t alg) (known : alg ≠ .unknown)
    (possible : alg ≠ .impossible) (costs : Costs)
    (addSub : t % 2 = 1 → ∃ after, tryAddSub target costs mode synth t search = some after ∧
      SearchFits target mode able t costLimit after)
    (before : SearchFits target mode able t costLimit search) :
    ∃ after, tryCached target costs mode synth t search alg = some after ∧
      SearchFits target mode able t costLimit after := by
  cases alg with
  | unknown => exact absurd rfl known
  | zero => exact parity.elim
  | m => exact parity.elim
  | shift => exact shift_fits answers searched parity costs before
  | addTM2 => exact addSub parity
  | subTM2 => exact addSub parity
  | addFactor => exact factor_fits answers searched (some .addFactor) costs before
  | subFactor => exact factor_fits answers searched (some .subFactor) costs before
  | addT2M => exact addT2M_fits answers searched parity costs before
  | subT2M => exact subT2M_fits answers searched parity costs before
  | impossible => exact absurd rfl possible

theorem all_fits (answers : AnswersBelow target mode synth (weight t))
    (searched : Searched target mode t) (costs : Costs)
    (addSub : t % 2 = 1 → ∃ after, tryAddSub target costs mode synth t search = some after ∧
      SearchFits target mode able t costLimit after)
    (before : SearchFits target mode able t costLimit search) :
    ∃ after, tryAll target costs mode synth t search = some after ∧
      SearchFits target mode able t costLimit after := by
  unfold tryAll
  rcases Nat.mod_two_eq_zero_or_one t with even | odd
  · rw [if_pos even]
    obtain ⟨shifted, ran, fits⟩ := shift_fits answers searched even costs before
    simp only [ran, Option.bind_eq_bind, Option.bind_some]
    exact factor_fits answers searched none costs fits
  · rw [if_neg (by omega)]
    obtain ⟨first, firstRan, firstFits⟩ := addSub odd
    obtain ⟨second, secondRan, secondFits⟩ := factor_fits answers searched none costs firstFits
    obtain ⟨third, thirdRan, thirdFits⟩ := addT2M_fits answers searched odd costs secondFits
    simp only [firstRan, secondRan, thirdRan, Option.bind_eq_bind, Option.bind_some]
    exact subT2M_fits answers searched odd costs thirdFits

theorem CacheFits.update {cache : AlgHash} {index : Nat} {entry : AlgHashEntry}
    (cacheFits : CacheFits cache) (entryFits : FitsParity entry.t entry.alg) :
    CacheFits (Function.update cache index entry) := by
  intro other
  by_cases same : other = index
  · rw [same, Function.update_self]
    exact entryFits
  · rw [Function.update_of_ne same]
    exact cacheFits other

theorem FitsParity.narrow {alg : AlgCode} (fits : FitsParity t alg) :
    FitsParity (t % 2 ^ hostBitsPerInt) alg := by
  have parity : t % 2 ^ hostBitsPerInt % 2 = t % 2 := by
    simp only [hostBitsPerInt]
    omega
  cases alg <;> simp only [FitsParity, parity] at fits ⊢ <;> exact fits

theorem finishSearch_fits (hit : Bool) (fits : SearchFits target mode able t costLimit search) :
    CacheFits (finishSearch target hit t mode costLimit search).2 ∧
      Answers target mode able t costLimit (finishSearch target hit t mode costLimit search).1 := by
  unfold finishSearch
  split
  · exact ⟨fits.cache.update trivial, .inr ⟨rfl, rfl⟩⟩
  · rename_i found
    have cacheFits : CacheFits (if hit then search.cache else
        Function.update search.cache (hashIndex t mode)
          ⟨t % 2 ^ hostBitsPerInt, mode, search.lastOp, search.bestCost⟩) := by
      split
      · exact fits.cache
      · exact fits.cache.update fits.lastOp.narrow
    dsimp only
    split
    · exact ⟨cacheFits, .inr ⟨rfl, rfl⟩⟩
    · refine ⟨cacheFits, ?_⟩
      obtain recorded | ⟨nothing, unchanged | wrapped⟩ := fits.best
      · exact .inl recorded
      · simp [unchanged, not_cheaper_self] at found
      · exact .inr ⟨nothing, wrapped⟩

theorem consultCache_hit {entry : AlgHashEntry} {alg : AlgCode}
    (answer : consultCache entry t mode costLimit = .hit alg) :
    entry.t = t ∧ entry.alg = alg ∧ alg ≠ .unknown ∧ alg ≠ .impossible := by
  unfold consultCache at answer
  split at answer
  · rename_i found
    split at answer
    · split at answer <;> cases answer
    · rename_i possible
      split at answer
      · cases answer
      · obtain rfl := CacheAnswer.hit.inj answer
        exact ⟨found.1, rfl, found.2.2, possible⟩
  · cases answer

theorem SearchFits.start {cache : AlgHash} (cacheFits : CacheFits cache) :
    SearchFits target mode able t costLimit ⟨costLimit, none, .unknown, cache⟩ :=
  ⟨cacheFits, trivial, le_rfl, .inr ⟨rfl, .inl rfl⟩⟩

theorem searchMult_answers (answers : AnswersBelow target mode synth (weight t))
    (searched : Searched target mode t) (costs : Costs) {cache : AlgHash}
    (addSub : t % 2 = 1 → ∃ after,
      tryAddSub target costs mode synth t ⟨costLimit, none, .unknown, cache⟩ = some after ∧
        SearchFits target mode able t costLimit after)
    (cacheFits : CacheFits cache) :
    ∃ alg cache', searchMult target costs mode synth t costLimit cache = some (alg, cache') ∧
      CacheFits cache' ∧ Answers target mode able t costLimit alg := by
  have entryFits := cacheFits (hashIndex t mode)
  unfold searchMult
  generalize cache (hashIndex t mode) = entry at entryFits
  cases answer : consultCache entry t mode costLimit with
  | giveUp => exact ⟨_, _, rfl, cacheFits, .inr ⟨rfl, rfl⟩⟩
  | hit alg =>
    obtain ⟨rfl, rfl, known, possible⟩ := consultCache_hit answer
    obtain ⟨after, ran, fits⟩ := cached_fits answers searched entryFits known possible costs
      addSub (.start cacheFits)
    obtain ⟨finalCache, answered⟩ := finishSearch_fits true fits
    exact ⟨_, _, by simp only [ran, Option.map_some], finalCache, answered⟩
  | miss =>
    obtain ⟨after, ran, fits⟩ := all_fits answers searched costs addSub (.start cacheFits)
    obtain ⟨finalCache, answered⟩ := finishSearch_fits false fits
    exact ⟨_, _, by simp only [ran, Option.map_some], finalCache, answered⟩

theorem modeMasked_modEq {t : Nat} (fits : t < 2 ^ target.host) :
    (modeMasked target mode t : Int) ≡ t [ZMOD 2 ^ target.modeBitsize mode] := by
  unfold modeMasked
  rcases Nat.le_total (target.modeBitsize mode) target.host with narrow | wide
  · rw [Nat.min_eq_left narrow]
    push_cast
    exact Int.mod_modEq _ _
  · rw [Nat.min_eq_right wide, Nat.mod_eq_of_lt fits]

theorem representable_modeMasked {t : Nat} (fits : t < 2 ^ target.host)
    (representable : Representable target mode t) :
    Representable target mode (modeMasked target mode t) := by
  rcases Nat.lt_or_ge target.host (target.modeBitsize mode) with wide | narrow
  · rw [modeMasked, Nat.min_eq_right (Nat.le_of_lt wide), Nat.mod_eq_of_lt fits]
    exact representable
  · exact .inl narrow

theorem multiplies_of_masked {t : Nat} {ops : List Step} (fits : t < 2 ^ target.host)
    (masked : Multiplies target mode (Representable target mode (modeMasked target mode t))
      (modeMasked target mode t) ops) :
    Multiplies target mode (Representable target mode t) t ops := by
  obtain ⟨c, known, multiplies⟩ := masked
  exact ⟨c, known, fun representable =>
    (multiplies (representable_modeMasked fits representable)).trans (modeMasked_modEq fits)⟩

theorem synthMultBounded_answers (target : Target) (costs : Costs) (mode fuel : Nat) :
    AnswersBelow target mode (synthMultBounded target costs mode fuel) fuel := by
  induction fuel with
  | zero => exact fun q _ impossible => absurd impossible (Nat.not_lt_zero _)
  | succ fuel ih =>
    intro q fits lighter costLimit cache cacheFits
    simp only [synthMultBounded]
    split
    · exact ⟨_, _, rfl, cacheFits, .inr ⟨rfl, rfl⟩⟩
    · have masked_lt : modeMasked target mode q < 2 ^ min (target.modeBitsize mode) target.host :=
        Nat.mod_lt _ (Nat.two_pow_pos _)
      have lift : ∀ ops, Multiplies target mode (Representable target mode
          (modeMasked target mode q)) (modeMasked target mode q) ops →
          Multiplies target mode (Representable target mode q) q ops :=
        fun _ => multiplies_of_masked fits
      generalize modeMasked target mode q = t at lighter masked_lt lift
      split
      · rename_i one
        subst one
        exact ⟨_, _, rfl, cacheFits, .inl ⟨_, rfl, lift _ ⟨1, rfl, fun _ => rfl⟩⟩⟩
      · split
        · rename_i zero
          subst zero
          split
          · exact ⟨_, _, rfl, cacheFits, .inr ⟨rfl, rfl⟩⟩
          · exact ⟨_, _, rfl, cacheFits, .inl ⟨_, rfl, lift _ ⟨0, rfl, fun _ => rfl⟩⟩⟩
        · have searched : Searched target mode t := ⟨by omega, masked_lt⟩
          have answers : AnswersBelow target mode (synthMultBounded target costs mode fuel)
              (weight t) := fun q' fits' lighter' => ih q' fits' (by omega)
          obtain ⟨alg, cache', returned, cacheFits', answered⟩ :=
            searchMult_answers answers searched costs
              (fun odd => addSub_fits answers searched odd costs id (.start cacheFits)) cacheFits
          refine ⟨alg, cache', returned, cacheFits', ?_⟩
          obtain ⟨ops, found, multiplies⟩ | failed := answered
          · exact .inl ⟨ops, found, lift ops multiplies⟩
          · exact .inr failed

theorem synthMult_answers (target : Target) (costs : Costs) (mode : Nat) {t : Nat}
    (fits : t < 2 ^ target.host) :
    AnswersFor target mode (synthMult target costs mode) t := by
  refine synthMultBounded_answers target costs mode (3 * t + 1) t fits ?_
  have masked_le : modeMasked target mode t ≤ t := Nat.mod_le _ _
  unfold weight
  split <;> omega

end Steps

def MultVariant.constant (variant : MultVariant) (c : Int) : Int :=
  match variant with
  | .basic => c
  | .negate => -c
  | .add => c + 1

theorem MultVariant.fixup_mul {size : Nat} (variant : MultVariant) (op0 : BitVec size) (c : Int) :
    variant.fixup op0 (c * op0) = variant.constant c * op0 := by
  cases variant <;> simp only [MultVariant.fixup, MultVariant.constant] <;> push_cast <;> ring

theorem intCast_eq_of_modEq {size : Nat} {a b : Int} (same : a ≡ b [ZMOD 2 ^ size]) :
    (a : BitVec size) = b := by
  apply BitVec.eq_of_toNat_eq
  rw [BitVec.toNat_intCast, BitVec.toNat_intCast, same.eq]

section Emitted

variable {target : Target} {mode : Nat}

theorem expandMultConst_eq {val : Nat} {ops : List Step} {variant : MultVariant} {c : Int}
    (known : coefficient ops = some c)
    (constant : variant.constant c ≡ val [ZMOD 2 ^ target.modeBitsize mode])
    (op0 : BitVec (target.modeBitsize mode)) :
    expandMultConst target mode op0 val ops variant = some (val * op0) := by
  have asserted : modeMasked target mode val =
      modeMasked target mode (variant.fixup 1 ((c : BitVec target.host) * 1)).toNat := by
    have wraps : (2 : Int) ^ min (target.modeBitsize mode) target.host ∣ 2 ^ target.host :=
      pow_dvd_pow 2 (Nat.min_le_right _ _)
    have same := constant.of_dvd
      (pow_dvd_pow (2 : Int) (Nat.min_le_left (target.modeBitsize mode) target.host))
    have nonneg : 0 ≤ variant.constant c % 2 ^ target.host := Int.emod_nonneg _ (by positivity)
    rw [variant.fixup_mul, mul_one, BitVec.toNat_intCast]
    apply Int.ofNat_inj.mp
    unfold modeMasked
    push_cast
    rw [Int.toNat_of_nonneg nonneg, Int.emod_emod_of_dvd _ wraps]
    exact same.symm
  simp only [expandMultConst, runSteps_eq_mul _ known, Option.bind_eq_bind, Option.bind_some]
  rw [if_pos asserted, variant.fixup_mul, intCast_eq_of_modEq constant]
  simp

end Emitted

/-- The tables that calls of `synth_mult` leave. -/
inductive Reachable (target : Target) (costs : Costs) : AlgHash → Prop where
  | initial : Reachable target costs AlgHash.initial
  | call {cache cache' : AlgHash} {alg : Algorithm} {mode t : Nat} {costLimit : MultCost}
      (before : Reachable target costs cache) (fits : t < 2 ^ target.host)
      (returned : synthMult target costs mode t costLimit cache = some (alg, cache')) :
      Reachable target costs cache'

theorem cacheFits_initial : CacheFits AlgHash.initial := fun _ => trivial

theorem Reachable.fits {target : Target} {costs : Costs} {cache : AlgHash}
    (reachable : Reachable target costs cache) : CacheFits cache := by
  induction reachable with
  | initial => exact cacheFits_initial
  | @call cache cache' alg mode t costLimit _ fits returned ih =>
    obtain ⟨_, _, same, cacheFits, -⟩ := synthMult_answers target costs mode fits costLimit cache ih
    rw [returned] at same
    obtain ⟨-, rfl⟩ := Prod.mk.inj (Option.some.inj same)
    exact cacheFits

/-- Whatever the earlier calls, `synth_mult` returns, and where the cost it
leaves is below the limit the emitted code multiplies by `t`. -/
def SynthCorrect (target : Target) (costs : Costs) (mode t : Nat) (costLimit : MultCost) : Prop :=
  ∀ cache, Reachable target costs cache →
    ∃ alg cache', synthMult target costs mode t costLimit cache = some (alg, cache') ∧
      (cheaperMultCost alg.cost costLimit = true → ∃ ops, alg.ops = some ops ∧
        ∀ op0, expandMultConst target mode op0 t ops .basic = some (t * op0))

/-- Multiplication by zero and a subtraction do not cost less than the limit. -/
def ZeroDear (costs : Costs) (mode : Nat) (costLimit : MultCost) : Prop :=
  hopeless (costLimit.minus (costs.addCost mode) (costs.addCost mode)) = true ∨
    multCostLess (costLimit.minus (costs.addCost mode) (costs.addCost mode)) costs.zeroCost = true

/-- The limit is not the largest `short`, where a failure looks cheap, unless
there is nothing to search for; and `t` is not the largest `HOST_WIDE_INT` in a
wider mode, unless the search for `t + 1` is lost. -/
def SynthSafe (target : Target) (costs : Costs) (mode t : Nat) (costLimit : MultCost) : Prop :=
  (Representable target mode t ∨ hopeless costLimit = true ∨ ZeroDear costs mode costLimit) ∧
    (costLimit.cost ≠ 32767 ∨ modeMasked target mode t = 1 ∨
      (modeMasked target mode t = 0 ∧ multCostLess costLimit costs.zeroCost = false))

theorem synthMultBounded_hopeless {target : Target} {costs : Costs} {mode fuel q : Nat}
    {costLimit : MultCost} {cache : AlgHash} (hope : hopeless costLimit = true) :
    synthMultBounded target costs mode (fuel + 1) q costLimit cache =
      some (noAlgorithm costLimit, cache) := by
  rw [synthMultBounded, if_pos hope]

theorem cost_ne_of_hopeless {costLimit : MultCost} (hope : hopeless costLimit = true) :
    costLimit.cost ≠ 32767 := by
  intro largest
  simp [hopeless, largest] at hope

theorem not_cheaper_of_succ {x y : MultCost} (next : x.cost = y.cost + 1) (below : y.cost ≠ 32767) :
    cheaperMultCost x y = false := by
  by_contra cheaper
  have le := toInt_le_of_cheaper (Bool.not_eq_false _ ▸ cheaper)
  rw [next, toInt_succ below] at le
  omega

def uniformCosts (cost : Nat) : Costs :=
  ⟨cost, fun _ => cost, fun _ => cost, fun _ _ => cost, fun _ _ => cost, fun _ _ => cost⟩

section Uniform

variable {target : Target} {mode t cost : Nat} {synth : Recursion} {keeps : Search → Prop}
  {search : Search}

def StepsKeep (synth : Recursion) (cost : Nat) (keeps : Search → Prop) : Prop :=
  ∀ q factor step search, keeps search →
    ∃ after, tryStep synth q cost cost factor step search = some after ∧ keeps after

theorem StepsKeep.factor (stepsKeep : StepsKeep synth cost keeps) (target : Target)
    (mode t : Nat) (hit : Option AlgCode) (before : keeps search) :
    ∃ after, tryFactor target (uniformCosts cost) mode synth hit t search = some after ∧
      keeps after := by
  have factorStep : ∀ d step, ∃ after,
      tryFactorStep (uniformCosts cost) mode synth t d cost step search = some after ∧
        keeps after := by
    intro d step
    simp only [tryFactorStep]
    split
    · exact stepsKeep _ _ _ search before
    · rename_i dear
      have free : (uniformCosts cost).addCost mode + (uniformCosts cost).shiftCost mode step.log =
          cost := by
        simp only [uniformCosts] at dear ⊢
        omega
      rw [free]
      exact stepsKeep _ _ _ search before
  unfold tryFactor
  split
  · exact ⟨search, rfl, before⟩
  · split
    · exact factorStep _ _
    · exact factorStep _ _

theorem StepsKeep.t2m (stepsKeep : StepsKeep synth cost keeps) (target : Target)
    (mode neighbour : Nat) (op : AlgCode) (before : keeps search) :
    ∃ after, tryT2M target mode synth neighbour (fun _ => cost) op search = some after ∧
      keeps after := by
  simp only [tryT2M]
  split
  · exact stepsKeep _ _ _ search before
  · exact ⟨search, rfl, before⟩

theorem StepsKeep.rest (stepsKeep : StepsKeep synth cost keeps) (target : Target) (mode t : Nat)
    {first : Search} (odd : t % 2 = 1)
    (ran : tryAddSub target (uniformCosts cost) mode synth t search = some first)
    (kept : keeps first) :
    ∃ after, tryAll target (uniformCosts cost) mode synth t search = some after ∧
      keeps after := by
  obtain ⟨second, secondRan, secondKept⟩ := stepsKeep.factor target mode t none kept
  obtain ⟨third, thirdRan, thirdKept⟩ := stepsKeep.t2m target mode (t - 1) .addT2M secondKept
  obtain ⟨last, lastRan, lastKept⟩ :=
    stepsKeep.t2m target mode ((t + 1) % 2 ^ target.host) .subT2M thirdKept
  refine ⟨last, ?_, lastKept⟩
  rw [tryAll, if_neg (by omega)]
  simp only [ran, secondRan, Option.bind_eq_bind, Option.bind_some]
  exact (congrArg (Option.bind · _) thirdRan).trans lastRan

theorem StepsKeep.all (stepsKeep : StepsKeep synth cost keeps) (searched : Searched target mode t)
    (before : keeps search) :
    ∃ after, tryAll target (uniformCosts cost) mode synth t search = some after ∧
      keeps after := by
  rcases Nat.mod_two_eq_zero_or_one t with even | odd
  · have two_le := searched.two_le
    obtain ⟨k, q, log_eq, quotient, product, half⟩ :=
      lowBitLog2_even (by omega) searched.lt_host even
    have positive : 0 < k := by
      rcases Nat.eq_zero_or_pos k with rfl | positive
      · omega
      · exact positive
    have shifted : ∃ first, tryShift target (uniformCosts cost) mode synth t search = some first ∧
        keeps first := by
      have price : min (k * cost) cost = cost :=
        Nat.min_eq_right (Nat.le_mul_of_pos_left cost positive)
      simp only [tryShift, log_eq, Int.toNat_natCast, uniformCosts, price]
      split
      · exact stepsKeep _ _ _ search before
      · exact ⟨search, rfl, before⟩
    obtain ⟨first, ran, kept⟩ := shifted
    obtain ⟨second, secondRan, secondKept⟩ := stepsKeep.factor target mode t none kept
    refine ⟨second, ?_, secondKept⟩
    rw [tryAll, if_pos even]
    simp only [ran, Option.bind_eq_bind, Option.bind_some]
    exact secondRan
  · have addSub : ∃ first, tryAddSub target (uniformCosts cost) mode synth t search = some first ∧
        keeps first := by
      simp only [tryAddSub]
      split
      · exact stepsKeep _ _ _ search before
      · exact stepsKeep _ _ _ search before
    obtain ⟨first, ran, kept⟩ := addSub
    exact stepsKeep.rest target mode t odd ran kept

/-- A step whose recursive call has no hope changes the search only where the
best cost is the largest `short`. -/
theorem tryStep_hopeless {q opCost opLatency : Nat} (factor : Bool) (step : Step)
    (returned : synth q (search.bestCost.minus opCost opLatency) search.cache =
      some (noAlgorithm (search.bestCost.minus opCost opLatency), search.cache)) :
    ∃ after, tryStep synth q opCost opLatency factor step search = some after ∧
      (after = search ∨ (search.bestCost.cost = 32767 ∧ after.bestOps = none ∧
        after.bestCost.cost = 32768)) := by
  obtain ⟨added, added_eq, tried⟩ := tryStep_eq factor step returned
  refine ⟨_, tried, ?_⟩
  have next : added.cost = search.bestCost.cost + 1 := by
    rw [added_eq, noAlgorithm, MultCost.minus]
    ring
  split
  · rename_i cheaper
    have largest : search.bestCost.cost = 32767 := by
      by_contra below
      rw [not_cheaper_of_succ next below] at cheaper
      cases cheaper
    refine .inr ⟨largest, rfl, ?_⟩
    rw [next, largest]
    rfl
  · exact .inl rfl

theorem consultCache_initial (index t mode : Nat) (costLimit : MultCost) :
    consultCache (AlgHash.initial index) t mode costLimit = .miss := by
  simp [consultCache, AlgHash.initial]

/-! With costs of 40000 every recursive call is hopeless, and the failure of
the first one passes for success when the limit is the largest `short`. -/

def Stuck (search : Search) : Prop :=
  search.bestOps = none ∧ (search.bestCost.cost = 32767 ∨ search.bestCost.cost = 32768)

theorem stuck_keeps (target : Target) (mode fuel : Nat) :
    StepsKeep (synthMultBounded target (uniformCosts 40000) mode (fuel + 1)) 40000 Stuck := by
  intro q factor step search stuck
  have hope : hopeless (search.bestCost.minus 40000 40000) = true := by
    obtain ⟨-, largest | wrapped⟩ := stuck
    · simp [hopeless, MultCost.minus, largest]
    · simp [hopeless, MultCost.minus, wrapped]
  obtain ⟨after, ran, same | ⟨-, nothing, wrapped⟩⟩ :=
    tryStep_hopeless factor step (synthMultBounded_hopeless hope)
  · exact ⟨after, ran, same ▸ stuck⟩
  · exact ⟨after, ran, nothing, .inr wrapped⟩

theorem finishSearch_stuck {hit : Bool} {costLimit : MultCost} {result : Algorithm × AlgHash}
    (stuck : Stuck search)
    (finished : finishSearch target hit t mode costLimit search = result) :
    result.1.ops = none := by
  subst finished
  unfold finishSearch
  split
  · rfl
  · dsimp only
    split
    · rfl
    · exact stuck.1

theorem synthMult_dear {costLimit : MultCost} {alg : Algorithm} {cache' : AlgHash}
    (largest : costLimit.cost = 32767) (notOne : modeMasked target mode t ≠ 1)
    (returned : synthMult target (uniformCosts 40000) mode t costLimit AlgHash.initial =
      some (alg, cache')) : alg.ops = none := by
  have hope : ¬ hopeless costLimit = true := fun hope => cost_ne_of_hopeless hope largest
  rw [synthMult, synthMultBounded, if_neg hope, if_neg notOne] at returned
  split at returned
  · have dear : multCostLess costLimit ((uniformCosts 40000).zeroCost : Nat) = true := by
      simp [multCostLess, uniformCosts, largest]
    rw [if_pos dear] at returned
    obtain ⟨rfl, -⟩ := Prod.mk.inj (Option.some.inj returned)
    rfl
  · rename_i notZero
    have masked_lt : modeMasked target mode t < 2 ^ min (target.modeBitsize mode) target.host :=
      Nat.mod_lt _ (Nat.two_pow_pos _)
    have masked_le : modeMasked target mode t ≤ t := Nat.mod_le _ _
    have searched : Searched target mode (modeMasked target mode t) := ⟨by omega, masked_lt⟩
    have fuel_eq : 3 * t = 3 * t - 1 + 1 := by omega
    rw [fuel_eq, searchMult, consultCache_initial] at returned
    obtain ⟨after, ran, stuck⟩ := (stuck_keeps target mode (3 * t - 1)).all searched
      (show Stuck ⟨costLimit, none, .unknown, AlgHash.initial⟩ from ⟨rfl, .inl largest⟩)
    simp only [ran, Option.map_some, Option.some.injEq] at returned
    exact finishSearch_stuck stuck returned

theorem not_synthCorrect_of_largest {costLimit : MultCost} (fits : t < 2 ^ target.host)
    (largest : costLimit.cost = 32767) (notOne : modeMasked target mode t ≠ 1) :
    ¬ SynthCorrect target (uniformCosts 40000) mode t costLimit := by
  intro correct
  obtain ⟨alg, cache', returned, means⟩ := correct _ .initial
  obtain ⟨_, _, same, -, answer⟩ := synthMult_answers target (uniformCosts 40000) mode fits costLimit
    AlgHash.initial cacheFits_initial
  rw [returned] at same
  obtain ⟨rfl, -⟩ := Prod.mk.inj (Option.some.inj same)
  have nothing := synthMult_dear largest notOne returned
  obtain ⟨ops, found, -⟩ | ⟨-, failed⟩ := answer
  · rw [nothing] at found
    cases found
  · obtain ⟨ops, found, -⟩ := means (by simp [cheaperMultCost, failed, largest])
    rw [nothing] at found
    cases found

/-! When nothing costs anything, the first step found for the largest
multiplier, from `t + 1`, is the best one; it multiplies by minus one. -/

theorem lowestZeroBit_mask {host : Nat} (k bits : Nat) (total : k + bits = host) :
    lowestZeroBit (2 ^ host - 1) bits (2 ^ k) = 0 := by
  induction bits generalizing k with
  | zero => rfl
  | succ bits ih =>
    have set : 2 ^ k &&& (2 ^ host - 1) ≠ 0 := by
      rw [Nat.and_two_pow_sub_one_eq_mod,
        Nat.mod_eq_of_lt (Nat.pow_lt_pow_right (by decide) (by omega))]
      exact (Nat.two_pow_pos k).ne'
    rw [lowestZeroBit, if_pos set, Nat.shiftLeft_eq, ← Nat.pow_add]
    exact ih (k + 1) (by omega)

def negated (cache : AlgHash) : Search :=
  ⟨⟨0, 0⟩, some [⟨.zero, 0⟩, ⟨.subTM2, 0⟩], .subTM2, cache⟩

theorem negated_keeps (target : Target) (mode fuel : Nat) (cache : AlgHash) :
    StepsKeep (synthMultBounded target (uniformCosts 0) mode (fuel + 1)) 0 (· = negated cache) := by
  rintro q factor step search rfl
  have hope : hopeless ((negated cache).bestCost.minus 0 0) = true := by
    simp [hopeless, negated, MultCost.minus]
  obtain ⟨after, ran, same | ⟨largest, -⟩⟩ :=
    tryStep_hopeless factor step (synthMultBounded_hopeless hope)
  · exact ⟨after, ran, same⟩
  · cases largest

theorem cheaper_of_hopeful {costLimit : MultCost} (hope : ¬ hopeless costLimit = true) :
    cheaperMultCost ⟨0, 0⟩ costLimit = true ∧ multCostLess costLimit 0 = false := by
  have zero : costLimit.cost.toInt = 0 → costLimit.cost = 0 := fun same =>
    BitVec.eq_of_toInt_eq same
  simp only [hopeless, Bool.or_eq_true, Bool.and_eq_true, decide_eq_true_eq, beq_iff_eq,
    not_or, not_and, not_le, not_lt] at hope
  obtain ⟨nonneg, positive⟩ := hope
  have cases : 0 < costLimit.cost.toInt ∨
      (costLimit.cost.toInt = 0 ∧ 0 < costLimit.latency.toInt) := by
    rcases Int.lt_or_eq_of_le nonneg with less | same
    · exact .inl less
    · exact .inr ⟨same.symm, positive (zero same.symm)⟩
  have zeroInt : (0 : BitVec 16).toInt = 0 := rfl
  simp only [cheaperMultCost, multCostLess, zeroInt, Bool.or_eq_true, Bool.and_eq_true,
    decide_eq_true_eq, beq_iff_eq, Bool.or_eq_false_iff, Bool.and_eq_false_iff,
    decide_eq_false_iff_not, beq_eq_false_iff_ne]
  omega

theorem hostMask_searched (wide : target.host < target.modeBitsize mode) :
    Searched target mode (2 ^ target.host - 1) := by
  have large : 2 ^ 32 ≤ 2 ^ target.host := Nat.pow_le_pow_right (by decide) target.int_le_host
  refine ⟨by omega, ?_⟩
  rw [Nat.min_eq_right (Nat.le_of_lt wide)]
  omega

theorem synthMult_hostMask {costs : Costs} {costLimit : MultCost} {cache : AlgHash}
    (wide : target.host < target.modeBitsize mode) (hope : ¬ hopeless costLimit = true) :
    ∃ fuel, 3 * (2 ^ target.host - 1) = fuel + 1 ∧
      synthMult target costs mode (2 ^ target.host - 1) costLimit cache =
        searchMult target costs mode (synthMultBounded target costs mode (fuel + 1))
          (2 ^ target.host - 1) costLimit cache := by
  have searched := hostMask_searched wide
  have two_le := searched.two_le
  have fuel_eq : 3 * (2 ^ target.host - 1) = 3 * (2 ^ target.host - 1) - 1 + 1 := by omega
  refine ⟨_, fuel_eq, ?_⟩
  rw [← fuel_eq, synthMult, synthMultBounded, if_neg hope, searched.masked_eq le_rfl,
    if_neg (by omega), if_neg (by omega)]

theorem tryAddSub_hostMask {costs : Costs} :
    tryAddSub target costs mode synth (2 ^ target.host - 1) search =
      tryStep synth 0 (costs.addCost mode) (costs.addCost mode) false ⟨.subTM2, 0⟩ search := by
  have next : (2 ^ target.host - 1 + 1) % 2 ^ target.host = 0 := by
    rw [Nat.sub_add_cancel (Nat.two_pow_pos _), Nat.mod_self]
  simp only [tryAddSub]
  rw [if_pos (.inl (lowestZeroBit_mask 0 target.host (Nat.zero_add _))), next]

theorem synthMult_free {costLimit : MultCost} (wide : target.host < target.modeBitsize mode)
    (hope : ¬ hopeless costLimit = true) :
    ∃ cache, synthMult target (uniformCosts 0) mode (2 ^ target.host - 1) costLimit
      AlgHash.initial = some (⟨⟨0, 0⟩, some [⟨.zero, 0⟩, ⟨.subTM2, 0⟩]⟩, cache) := by
  obtain ⟨fuel, -, started⟩ := synthMult_hostMask wide hope
  have first : tryAddSub target (uniformCosts 0) mode
      (synthMultBounded target (uniformCosts 0) mode (fuel + 1)) (2 ^ target.host - 1)
      ⟨costLimit, none, .unknown, AlgHash.initial⟩ = some (negated AlgHash.initial) := by
    have limit : costLimit.minus 0 0 = costLimit := by
      simp [MultCost.minus]
    have zero : synthMultBounded target (uniformCosts 0) mode (fuel + 1) 0 costLimit
        AlgHash.initial = some (⟨⟨0, 0⟩, some [⟨.zero, 0⟩]⟩, AlgHash.initial) := by
      rw [synthMultBounded, if_neg hope]
      simp only [modeMasked, Nat.zero_mod]
      have cheap := (cheaper_of_hopeful hope).2
      simp [uniformCosts, cheap]
    have added : MultCost.plus ⟨0, 0⟩ 0 0 = ⟨0, 0⟩ := rfl
    have add_eq : (uniformCosts 0).addCost mode = 0 := rfl
    rw [tryAddSub_hostMask, add_eq]
    simp only [tryStep, limit, zero, Option.bind_eq_bind, Option.bind_some, added, Bool.false_and,
      Bool.false_eq_true, if_false, (cheaper_of_hopeful hope).1, if_true]
    rfl
  obtain ⟨after, ran, rfl⟩ := (negated_keeps target mode fuel AlgHash.initial).rest target mode _
    (host_mask_odd target) first rfl
  rw [started, searchMult, consultCache_initial]
  simp only [ran, Option.map_some]
  have short : target.maxBitsPerWord + 1 ≠ 2 := by
    have := target.one_lt_word
    have := target.word_le_max
    omega
  have cheap : cheaperMultCost (negated AlgHash.initial).bestCost costLimit = true :=
    (cheaper_of_hopeful hope).1
  have length : (negated AlgHash.initial).bestOps.map List.length ≠
      some (target.maxBitsPerWord + 1) := by
    simp only [negated, Option.map_some, List.length_cons, List.length_nil, ne_eq,
      Option.some.injEq]
    omega
  simp only [finishSearch, cheap, Bool.not_true, Bool.false_eq_true, if_false]
  rw [if_neg length]
  exact ⟨_, rfl⟩

theorem not_synthCorrect_of_wide {costLimit : MultCost}
    (wide : target.host < target.modeBitsize mode) (hope : ¬ hopeless costLimit = true) :
    ¬ SynthCorrect target (uniformCosts 0) mode (2 ^ target.host - 1) costLimit := by
  intro correct
  obtain ⟨alg, cache', returned, means⟩ := correct _ .initial
  obtain ⟨cache, free⟩ := synthMult_free wide hope
  rw [free] at returned
  obtain ⟨rfl, -⟩ := Prod.mk.inj (Option.some.inj returned)
  obtain ⟨ops, found, product⟩ := means (cheaper_of_hopeful hope).1
  obtain rfl := Option.some.inj found
  have one := product 1
  have known : coefficient [⟨.zero, 0⟩, ⟨.subTM2, 0⟩] = some (-1) := rfl
  simp only [expandMultConst, runSteps_eq_mul _ known, Option.bind_eq_bind, Option.bind_some] at one
  split at one
  · have same : ((-1 : Int) : BitVec (target.modeBitsize mode)) = (2 ^ target.host - 1 : Nat) := by
      simpa [MultVariant.fixup] using one
    have zero : ((2 ^ target.host : Nat) : BitVec (target.modeBitsize mode)) = 0 := by
      rw [← Nat.sub_add_cancel (Nat.two_pow_pos target.host), Nat.cast_add, ← same]
      simp
    have power : 2 ^ target.host < 2 ^ target.modeBitsize mode :=
      Nat.pow_lt_pow_right (by decide) wide
    have numbers := congrArg BitVec.toNat zero
    rw [BitVec.natCast_eq_ofNat, BitVec.toNat_ofNat, Nat.mod_eq_of_lt power] at numbers
    exact (Nat.two_pow_pos target.host).ne' (numbers.trans BitVec.toNat_zero)
  · cases one

end Uniform

theorem synthSafe_of_correct {target : Target} {mode t : Nat} {costLimit : MultCost}
    (fits : t < 2 ^ target.host)
    (correct : ∀ costs, SynthCorrect target costs mode t costLimit) (costs : Costs) :
    SynthSafe target costs mode t costLimit := by
  constructor
  · by_contra refuted
    simp only [Representable, not_or, not_le, not_not] at refuted
    obtain ⟨⟨wide, rfl⟩, hope, -⟩ := refuted
    exact not_synthCorrect_of_wide wide hope (correct _)
  · by_contra refuted
    simp only [not_or, not_not] at refuted
    exact not_synthCorrect_of_largest fits refuted.1 refuted.2.1 (correct _)

section Safe

variable {target : Target} {costs : Costs} {mode t : Nat} {costLimit : MultCost}
  {cache : AlgHash}

theorem synthMult_one (hope : ¬ hopeless costLimit = true) (one : modeMasked target mode t = 1) :
    synthMult target costs mode t costLimit cache = some (⟨⟨0, 0⟩, some [⟨.m, 0⟩]⟩, cache) := by
  rw [synthMult, synthMultBounded, if_neg hope, if_pos one]

theorem synthMult_zero (hope : ¬ hopeless costLimit = true) (zero : modeMasked target mode t = 0)
    (cheap : multCostLess costLimit costs.zeroCost = false) :
    synthMult target costs mode t costLimit cache =
      some (⟨⟨BitVec.ofNat 16 costs.zeroCost, BitVec.ofNat 16 costs.zeroCost⟩,
        some [⟨.zero, 0⟩]⟩, cache) := by
  rw [synthMult, synthMultBounded, if_neg hope]
  simp [zero, cheap]

theorem synthMultBounded_dear {fuel : Nat}
    (dear : hopeless costLimit = true ∨ multCostLess costLimit costs.zeroCost = true) :
    synthMultBounded target costs mode (fuel + 1) 0 costLimit cache =
      some (noAlgorithm costLimit, cache) := by
  obtain hope | dear := dear
  · exact synthMultBounded_hopeless hope
  · rw [synthMultBounded]
    split
    · rfl
    · simp [modeMasked]

/-- Where the search for `t + 1 = 0` fails, the other steps are right for the
largest `t` as well. -/
theorem synthMult_dear_answers (wide : target.host < target.modeBitsize mode)
    (below : costLimit.cost ≠ 32767) (dear : ZeroDear costs mode costLimit)
    (hope : ¬ hopeless costLimit = true) (cacheFits : CacheFits cache) :
    ∃ alg cache', synthMult target costs mode (2 ^ target.host - 1) costLimit cache =
        some (alg, cache') ∧
      CacheFits cache' ∧ Answers target mode True (2 ^ target.host - 1) costLimit alg := by
  obtain ⟨fuel, fuel_eq, started⟩ := synthMult_hostMask wide hope
  rw [started]
  have answers : AnswersBelow target mode (synthMultBounded target costs mode (fuel + 1))
      (weight (2 ^ target.host - 1)) := by
    have heavy : weight (2 ^ target.host - 1) = fuel + 1 := by
      rw [weight, if_neg (by rw [host_mask_odd]; decide), fuel_eq]
    rw [heavy]
    exact synthMultBounded_answers target costs mode (fuel + 1)
  refine searchMult_answers answers (hostMask_searched wide) costs (fun _ => ?_) cacheFits
  rw [tryAddSub_hostMask]
  have failed : ∃ after, tryStep (synthMultBounded target costs mode (fuel + 1)) 0
      (costs.addCost mode) (costs.addCost mode) false ⟨.subTM2, 0⟩
      ⟨costLimit, none, .unknown, cache⟩ = some after ∧ _ :=
    tryStep_hopeless false ⟨.subTM2, 0⟩ (synthMultBounded_dear dear)
  obtain ⟨after, ran, rfl | ⟨largest, -⟩⟩ := failed
  · exact ⟨_, ran, .start cacheFits⟩
  · exact absurd largest below

theorem synthMult_safe_answers (fits : t < 2 ^ target.host)
    (safe : Representable target mode t ∨ hopeless costLimit = true ∨
      (costLimit.cost ≠ 32767 ∧ ZeroDear costs mode costLimit))
    (cacheFits : CacheFits cache) :
    ∃ alg cache', synthMult target costs mode t costLimit cache = some (alg, cache') ∧
      CacheFits cache' ∧ Answers target mode True t costLimit alg := by
  by_cases representable : Representable target mode t
  · obtain ⟨alg, cache', returned, fits', answer⟩ :=
      synthMult_answers target costs mode fits costLimit cache cacheFits
    refine ⟨alg, cache', returned, fits', answer.imp_left ?_⟩
    rintro ⟨ops, found, c, known, multiplies⟩
    exact ⟨ops, found, c, known, fun _ => multiplies representable⟩
  · by_cases hope : hopeless costLimit = true
    · exact ⟨_, _, synthMultBounded_hopeless hope, cacheFits, .inr ⟨rfl, rfl⟩⟩
    · obtain ⟨below, dear⟩ := (safe.resolve_left representable).resolve_left hope
      simp only [Representable, not_or, not_le, not_not] at representable
      obtain ⟨wide, rfl⟩ := representable
      exact synthMult_dear_answers wide below dear hope cacheFits

theorem synthCorrect_of_safe (fits : t < 2 ^ target.host)
    (safe : SynthSafe target costs mode t costLimit) :
    SynthCorrect target costs mode t costLimit := by
  intro cache reachable
  obtain ⟨searchable, limit⟩ := safe
  have answers : Representable target mode t ∨ hopeless costLimit = true ∨
      (costLimit.cost ≠ 32767 ∧ ZeroDear costs mode costLimit) := by
    by_cases representable : Representable target mode t
    · exact .inl representable
    · refine .inr ((searchable.resolve_left representable).imp_right fun dear => ⟨?_, dear⟩)
      simp only [Representable, not_or, not_le, not_not] at representable
      obtain ⟨wide, rfl⟩ := representable
      have searched := hostMask_searched wide
      have two_le := searched.two_le
      rw [searched.masked_eq le_rfl] at limit
      obtain below | one | ⟨zero, -⟩ := limit
      · exact below
      · omega
      · omega
  obtain ⟨alg, cache', returned, -, answer⟩ :=
    synthMult_safe_answers fits answers reachable.fits
  refine ⟨alg, cache', returned, fun cheaper => ?_⟩
  obtain ⟨ops, found, c, known, multiplies⟩ | ⟨nothing, failed⟩ := answer
  · exact ⟨ops, found, expandMultConst_eq known (multiplies trivial)⟩
  · by_cases below : costLimit.cost = 32767
    · -- multiplication by one or zero does not fail
      have hope : ¬ hopeless costLimit = true := fun hope => cost_ne_of_hopeless hope below
      obtain one | ⟨zero, cheap⟩ := limit.resolve_left (not_not.mpr below)
      · rw [synthMult_one hope one] at returned
        obtain ⟨rfl, -⟩ := Prod.mk.inj (Option.some.inj returned)
        cases nothing
      · rw [synthMult_zero hope zero cheap] at returned
        obtain ⟨rfl, -⟩ := Prod.mk.inj (Option.some.inj returned)
        cases nothing
    · rw [not_cheaper_of_succ failed below] at cheaper
      cases cheaper

end Safe

/-- Whatever the earlier calls, `choose_mult_variant` returns, and the code
emitted for the variant that it chooses multiplies by `val`. -/
def ChooseCorrect (target : Target) (costs : Costs) (mode val : Nat) (multCost : Int) : Prop :=
  ∀ cache, Reachable target costs cache →
    ∃ chosen cache', chooseMultVariant target costs mode val multCost cache =
        some (chosen, cache') ∧
      ∀ alg variant, chosen = some (alg, variant) → ∃ ops, alg.ops = some ops ∧
        ∀ op0, expandMultConst target mode op0 val ops variant = some (val * op0)

def MultCost.both (cost : Int) : MultCost := ⟨BitVec.ofInt 16 cost, BitVec.ofInt 16 cost⟩

/-- The multiplier is 1 or 0 in the mode, and the search for it succeeds at once. -/
def Immediate (target : Target) (costs : Costs) (mode val : Nat) (costLimit : MultCost) : Prop :=
  hopeless costLimit = false ∧ (modeMasked target mode val = 1 ∨
    (modeMasked target mode val = 0 ∧ multCostLess costLimit costs.zeroCost = false ∧
      costs.zeroCost ≠ 32767))

/-- In a mode wider than `HOST_WIDE_INT` no search is made for a number that has
wrapped: for `val + 1 = 0`, or for `val - 1` after multiplication by zero. -/
def NoneWrapped (target : Target) (costs : Costs) (mode val : Nat) (bound : Int) : Prop :=
  target.modeBitsize mode ≤ target.host ∨
    (val = 2 ^ target.host - 1 →
      hopeless (.both bound) = true ∨ ZeroDear costs mode (.both bound)) ∧
    (val = 0 → hopeless ((MultCost.both (min costs.zeroCost bound)).minus (costs.addCost mode)
      (costs.addCost mode)) = true)

/-- The bound that the search starts from is below the largest `short`, or there
is nothing to search for; and no number that has wrapped is searched for. -/
def ChooseSafe (target : Target) (costs : Costs) (mode val : Nat) (multCost : Int) : Prop :=
  let bound := min multCost (2 * target.modeBitsize mode * costs.addCost mode : Nat)
  multCost < 0 ∨ ((bound < 32767 ∨ Immediate target costs mode val (.both bound)) ∧
    NoneWrapped target costs mode val bound)

section Variants

variable {target : Target} {costs : Costs} {mode val : Nat} {multCost : Int}

/-- The algorithm and the fixup multiply by `val`. -/
def Produces (target : Target) (mode val : Nat) (alg : Algorithm) (variant : MultVariant) : Prop :=
  ∃ ops c, alg.ops = some ops ∧ coefficient ops = some c ∧
    variant.constant c ≡ val [ZMOD 2 ^ target.modeBitsize mode]

/-- An algorithm and a fixup that multiply by `val`, or a failure, which a bound
below the largest `short` shows. -/
def VariantAnswers (target : Target) (mode val : Nat) (multCost : Int) (alg : Algorithm)
    (variant : MultVariant) : Prop :=
  (Produces target mode val alg variant ∧
      (multCost < 32767 ∨ alg.cost.cost.toInt < 32767)) ∨
    (alg.ops = none ∧ multCost < 32767 ∧ alg.cost.cost = BitVec.ofInt 16 multCost + 1)

theorem toInt_ofInt_of_short (nonneg : 0 ≤ multCost) (short : multCost < 32767) :
    (BitVec.ofInt 16 multCost).toInt = multCost ∧ BitVec.ofInt 16 multCost ≠ 32767 := by
  have value : (BitVec.ofInt 16 multCost).toInt = multCost := by
    rw [BitVec.toInt_ofInt]
    exact Int.bmod_eq_of_le (by omega) (by omega)
  refine ⟨value, fun largest => ?_⟩
  rw [largest] at value
  have : (32767 : BitVec 16).toInt = 32767 := rfl
  omega

theorem not_less_of_failed {alg : Algorithm} (nonneg : 0 ≤ multCost) (short : multCost < 32767)
    (failed : alg.cost.cost = BitVec.ofInt 16 multCost + 1) :
    multCostLess alg.cost multCost = false := by
  obtain ⟨value, below⟩ := toInt_ofInt_of_short nonneg short
  have next := toInt_succ below
  simp only [multCostLess, failed, next, value, Bool.or_eq_false_iff, Bool.and_eq_false_iff,
    decide_eq_false_iff_not, beq_eq_false_iff_ne]
  omega

theorem tryVariant_answers {synth : Recursion} {t : Nat} (opCost : Nat) (variant : MultVariant)
    {chosen : MultVariant} {alg : Algorithm} {cache : AlgHash}
    (attempt : ∀ limit : MultCost, limit = (if multCostLess alg.cost multCost then
        alg.cost.minus opCost opCost else (MultCost.both multCost).minus opCost opCost) →
      ∃ alg2 cache', synth t limit cache = some (alg2, cache') ∧ CacheFits cache' ∧
        (Produces target mode val alg2 variant ∨
          (alg2.ops = none ∧ alg2.cost.cost = limit.cost + 1)))
    (answer : VariantAnswers target mode val multCost alg chosen) :
    ∃ alg' chosen' cache', tryVariant synth multCost t opCost variant ((alg, chosen), cache) =
        some ((alg', chosen'), cache') ∧ CacheFits cache' ∧
      VariantAnswers target mode val multCost alg' chosen' := by
  simp only [tryVariant]
  generalize limit_eq : (if multCostLess alg.cost multCost = true then alg.cost.minus opCost opCost
    else MultCost.minus ⟨BitVec.ofInt 16 multCost, BitVec.ofInt 16 multCost⟩ opCost opCost) = limit
  obtain ⟨alg2, cache', returned, cacheFits', answer2⟩ := attempt limit limit_eq.symm
  simp only [returned, Option.bind_eq_bind, Option.bind_some]
  split
  · rename_i cheaper
    refine ⟨_, _, cache', rfl, cacheFits', ?_⟩
    have le : _ ≤ alg.cost.cost.toInt := toInt_le_of_cheaper cheaper
    have small : multCost < 32767 ∨ alg.cost.cost.toInt < 32767 := by
      obtain ⟨-, small⟩ | ⟨-, short, -⟩ := answer
      · exact small
      · exact .inl short
    obtain found | ⟨nothing, failed⟩ := answer2
    · exact .inl ⟨found, small.imp_right (Int.lt_of_le_of_lt le)⟩
    · split at limit_eq
      · -- one more than the cost found so far is not cheaper than it
        rename_i less
        exfalso
        have below : alg.cost.cost ≠ 32767 := by
          intro largest
          have value : (32767 : BitVec 16).toInt = 32767 := rfl
          simp only [multCostLess, largest, Bool.or_eq_true, Bool.and_eq_true, decide_eq_true_eq,
            beq_iff_eq] at less
          rw [largest] at small
          omega
        rw [not_cheaper_of_succ ?_ below] at cheaper
        · cases cheaper
        · simp only [MultCost.plus, failed, ← limit_eq, MultCost.minus]
          ring
      · rename_i notLess
        refine .inr ⟨nothing, ?_, ?_⟩
        · by_contra large
          refine notLess ?_
          simp only [multCostLess, Bool.or_eq_true, decide_eq_true_eq]
          omega
        · simp only [MultCost.plus, failed, ← limit_eq, MultCost.minus]
          ring
  · exact ⟨alg, chosen, cache', rfl, cacheFits', answer⟩

theorem synthMult_attempt (costs : Costs) {t : Nat} (val : Nat) (variant : MultVariant)
    {cache : AlgHash}
    (fits : t < 2 ^ target.host) (representable : Representable target mode t)
    (right : ∀ c, c ≡ t [ZMOD 2 ^ target.modeBitsize mode] →
      variant.constant c ≡ val [ZMOD 2 ^ target.modeBitsize mode])
    (cacheFits : CacheFits cache) (limit : MultCost) :
    ∃ alg2 cache', synthMult target costs mode t limit cache = some (alg2, cache') ∧
      CacheFits cache' ∧ (Produces target mode val alg2 variant ∨
        (alg2.ops = none ∧ alg2.cost.cost = limit.cost + 1)) := by
  obtain ⟨alg2, cache', returned, cacheFits', answer⟩ :=
    synthMult_answers target costs mode fits limit cache cacheFits
  refine ⟨alg2, cache', returned, cacheFits', answer.imp_left ?_⟩
  rintro ⟨ops, found, c, known, multiplies⟩
  exact ⟨ops, c, found, known, right c (multiplies representable)⟩

theorem host_modEq_zero (narrow : target.modeBitsize mode ≤ target.host) :
    (2 : Int) ^ target.host ≡ 0 [ZMOD 2 ^ target.modeBitsize mode] :=
  Int.modEq_zero_iff_dvd.mpr (pow_dvd_pow 2 narrow)

theorem pred_modEq (fits : val < 2 ^ target.host)
    (seen : target.modeBitsize mode ≤ target.host ∨ val ≠ 0) :
    (((val + 2 ^ target.host - 1) % 2 ^ target.host : Nat) : Int) + 1 ≡ val
      [ZMOD 2 ^ target.modeBitsize mode] := by
  have positive := Nat.two_pow_pos target.host
  rcases Nat.eq_zero_or_pos val with rfl | valPositive
  · have narrow : target.modeBitsize mode ≤ target.host := seen.resolve_right fun nonzero =>
      nonzero rfl
    have whole : (0 + 2 ^ target.host - 1) % 2 ^ target.host + 1 = 2 ^ target.host := by
      rw [Nat.mod_eq_of_lt (by omega)]
      omega
    have cast : (((0 + 2 ^ target.host - 1) % 2 ^ target.host : Nat) : Int) + 1 =
        2 ^ target.host := by exact_mod_cast whole
    rw [cast]
    exact host_modEq_zero narrow
  · have below : (val + 2 ^ target.host - 1) % 2 ^ target.host = val - 1 := by
      rw [show val + 2 ^ target.host - 1 = val - 1 + 2 ^ target.host by omega,
        Nat.add_mod_right, Nat.mod_eq_of_lt (by omega)]
    rw [below, Nat.cast_sub valPositive]
    simp

theorem neg_modEq (fits : val < 2 ^ target.host) (narrow : target.modeBitsize mode ≤ target.host) :
    -(((2 ^ target.host - val) % 2 ^ target.host : Nat) : Int) ≡ val
      [ZMOD 2 ^ target.modeBitsize mode] := by
  have wrapped : (((2 ^ target.host - val) % 2 ^ target.host : Nat) : Int) ≡ 2 ^ target.host - val
      [ZMOD 2 ^ target.modeBitsize mode] := by
    push_cast
    rw [Nat.cast_sub (Nat.le_of_lt fits)]
    push_cast
    exact (Int.mod_modEq _ _).of_dvd (pow_dvd_pow 2 narrow)
  have negated := (wrapped.trans ((host_modEq_zero narrow).sub_right _)).neg
  simpa using negated

theorem pred_representable (fits : val < 2 ^ target.host)
    (seen : target.modeBitsize mode ≤ target.host ∨ val ≠ 0) :
    Representable target mode ((val + 2 ^ target.host - 1) % 2 ^ target.host) := by
  obtain narrow | nonzero := seen
  · exact .inl narrow
  · refine .inr ?_
    rw [show val + 2 ^ target.host - 1 = val - 1 + 2 ^ target.host by omega,
      Nat.add_mod_right, Nat.mod_eq_of_lt (by omega)]
    omega

theorem tryNegate_answers (costs : Costs) {chosen : MultVariant} {alg : Algorithm} {cache : AlgHash}
    (fits : val < 2 ^ target.host) (cacheFits : CacheFits cache)
    (answer : VariantAnswers target mode val multCost alg chosen) :
    ∃ alg' chosen' cache', tryNegate target costs mode val multCost ((alg, chosen), cache) =
        some ((alg', chosen'), cache') ∧ CacheFits cache' ∧
      VariantAnswers target mode val multCost alg' chosen' ∧
      (target.host < target.modeBitsize mode → alg' = alg) := by
  unfold tryNegate
  split
  · rename_i small
    have narrow : target.modeBitsize mode ≤ target.host := Nat.le_trans small target.int_le_host
    obtain ⟨alg', chosen', cache', ran, fits', answer'⟩ := tryVariant_answers
      (costs.negCost mode) .negate (fun limit _ => synthMult_attempt costs val .negate
        (Nat.mod_lt _ (Nat.two_pow_pos _)) (.inl narrow)
        (fun c known => known.neg.trans (neg_modEq fits narrow)) cacheFits limit) answer
    exact ⟨alg', chosen', cache', ran, fits', answer', fun wide => by omega⟩
  · exact ⟨alg, chosen, cache, rfl, cacheFits, answer, fun _ => rfl⟩

theorem Immediate.answer {costLimit : MultCost} {cache cache' : AlgHash} {alg : Algorithm}
    (immediate : Immediate target costs mode val costLimit)
    (returned : synthMult target costs mode val costLimit cache = some (alg, cache')) :
    alg.ops ≠ none ∧ alg.cost.cost.toInt < 32767 := by
  obtain ⟨hope, one | ⟨zero, cheap, different⟩⟩ := immediate
  · rw [synthMult_one (by simp [hope]) one] at returned
    obtain ⟨rfl, -⟩ := Prod.mk.inj (Option.some.inj returned)
    exact ⟨nofun, by decide⟩
  · rw [synthMult_zero (by simp [hope]) zero cheap] at returned
    obtain ⟨rfl, -⟩ := Prod.mk.inj (Option.some.inj returned)
    refine ⟨nofun, ?_⟩
    have bound := BitVec.toInt_lt (x := costLimit.cost)
    simp only [multCostLess, Bool.or_eq_false_iff, decide_eq_false_iff_not] at cheap
    have value : (BitVec.ofNat 16 costs.zeroCost).toInt = costs.zeroCost := by
      rw [← BitVec.ofInt_natCast, BitVec.toInt_ofInt]
      exact Int.bmod_eq_of_le (by omega) (by omega)
    simp only [value]
    omega

/-- The limit of the last attempt, after multiplication by zero has been tried. -/
theorem lastLimit_eq {bound : Int} {cache cache' : AlgHash} {alg : Algorithm} (nonneg : 0 ≤ bound)
    (started : bound < 32767 ∨ Immediate target costs mode 0 (.both bound))
    (returned : synthMult target costs mode 0 (.both bound) cache = some (alg, cache')) :
    (if multCostLess alg.cost bound then alg.cost else .both bound) =
      MultCost.both (min costs.zeroCost bound) := by
  have masked : modeMasked target mode 0 = 0 := Nat.zero_mod _
  by_cases dear : hopeless (.both bound) = true ∨
      multCostLess (.both bound) costs.zeroCost = true
  · have short : bound < 32767 := by
      refine started.resolve_right fun immediate => ?_
      obtain ⟨hope, one | ⟨-, cheap, -⟩⟩ := immediate
      · omega
      · simp [hope, cheap] at dear
    rw [synthMult, synthMultBounded_dear dear] at returned
    obtain ⟨rfl, -⟩ := Prod.mk.inj (Option.some.inj returned)
    obtain ⟨value, -⟩ := toInt_ofInt_of_short nonneg short
    rw [not_less_of_failed nonneg short rfl, if_neg (by decide)]
    congr 1
    obtain hope | dear := dear
    · have zero : BitVec.ofInt 16 bound = 0 → bound = 0 := fun zero => by
        rw [← value, zero]
        rfl
      simp only [hopeless, MultCost.both, value, Bool.or_eq_true, Bool.and_eq_true,
        decide_eq_true_eq, beq_iff_eq] at hope
      omega
    · simp only [multCostLess, MultCost.both, value, Bool.or_eq_true, Bool.and_eq_true,
        decide_eq_true_eq, beq_iff_eq] at dear
      omega
  · obtain ⟨hope, cheap⟩ := not_or.mp dear
    rw [Bool.not_eq_true] at cheap
    rw [synthMult_zero hope masked cheap] at returned
    obtain ⟨rfl, -⟩ := Prod.mk.inj (Option.some.inj returned)
    have price : (⟨BitVec.ofNat 16 costs.zeroCost, BitVec.ofNat 16 costs.zeroCost⟩ : MultCost) =
        .both costs.zeroCost := by simp [MultCost.both]
    have top := BitVec.toInt_lt (x := BitVec.ofInt 16 bound)
    have cheap : ¬ (BitVec.ofInt 16 bound).toInt < costs.zeroCost := by
      simp only [multCostLess, Bool.or_eq_false_iff, decide_eq_false_iff_not] at cheap
      exact cheap.1
    have le : (costs.zeroCost : Int) ≤ bound := by
      by_cases short : bound < 32767
      · rw [(toInt_ofInt_of_short nonneg short).1] at cheap
        omega
      · omega
    have value : (BitVec.ofInt 16 costs.zeroCost).toInt = costs.zeroCost := by
      rw [BitVec.toInt_ofInt]
      exact Int.bmod_eq_of_le (by omega) (by omega)
    rw [price, min_eq_left le]
    split
    · rfl
    · rename_i notLess
      simp only [multCostLess, MultCost.both, value, Bool.or_eq_true, decide_eq_true_eq,
        not_or] at notLess
      rw [show (costs.zeroCost : Int) = bound by omega]

theorem chooseCorrect_of_safe (fits : val < 2 ^ target.host)
    (safe : ChooseSafe target costs mode val multCost) :
    ChooseCorrect target costs mode val multCost := by
  intro cache reachable
  unfold chooseMultVariant
  obtain negative | ⟨started, unwrapped⟩ := safe
  · rw [if_pos negative]
    exact ⟨none, cache, rfl, fun _ _ chosen => nomatch chosen⟩
  · split
    · exact ⟨none, cache, rfl, fun _ _ chosen => nomatch chosen⟩
    · rename_i nonnegative
      have nonneg : 0 ≤ min multCost (2 * target.modeBitsize mode * costs.addCost mode : Nat) := by
        omega
      dsimp only
      generalize min multCost (2 * target.modeBitsize mode * costs.addCost mode : Nat) = bound
        at started unwrapped nonneg
      have searchable : Representable target mode val ∨ hopeless (.both bound) = true ∨
          ((MultCost.both bound).cost ≠ 32767 ∧ ZeroDear costs mode (.both bound)) := by
        by_cases representable : Representable target mode val
        · exact .inl representable
        · simp only [Representable, not_or, not_le, not_not] at representable
          obtain ⟨wide, largest⟩ := representable
          refine .inr (((unwrapped.resolve_left (by omega)).1 largest).imp_right fun dear =>
            ⟨?_, dear⟩)
          obtain short | ⟨-, trivial⟩ := started
          · exact (toInt_ofInt_of_short nonneg short).2
          · have searched := hostMask_searched wide
            have two_le := searched.two_le
            rw [largest, searched.masked_eq le_rfl] at trivial
            omega
      obtain ⟨alg, cache1, returned, fits1, answer⟩ :=
        synthMult_safe_answers fits searchable reachable.fits
      have basic : VariantAnswers target mode val bound alg .basic := by
        obtain ⟨ops, found, c, known, multiplies⟩ | ⟨nothing, failed⟩ := answer
        · exact .inl ⟨⟨ops, c, found, known, multiplies trivial⟩,
            started.imp_right fun immediate => (immediate.answer returned).2⟩
        · exact .inr ⟨nothing,
            started.resolve_right fun immediate => (immediate.answer returned).1 nothing, failed⟩
      obtain ⟨alg2, chosen2, cache2, ran2, fits2, answer2, same⟩ :=
        tryNegate_answers costs fits fits1 basic
      obtain ⟨alg3, chosen3, cache3, ran3, -, answer3⟩ := tryVariant_answers
        (costs.addCost mode) .add (fun limit limit_eq => by
          by_cases seen : target.modeBitsize mode ≤ target.host ∨ val ≠ 0
          · exact synthMult_attempt costs val .add (Nat.mod_lt _ (Nat.two_pow_pos _))
              (pred_representable fits seen)
              (fun c known => (known.add_right 1).trans (pred_modEq fits seen)) fits2 limit
          · simp only [not_or, not_le, not_not] at seen
            obtain ⟨wide, rfl⟩ := seen
            have hope : hopeless limit = true := by
              rw [limit_eq, same wide, ← apply_ite
                (fun cost : MultCost => cost.minus (costs.addCost mode) (costs.addCost mode)),
                lastLimit_eq nonneg started returned]
              exact (unwrapped.resolve_left (by omega)).2 rfl
            exact ⟨_, _, synthMultBounded_hopeless hope, fits2, .inr ⟨rfl, rfl⟩⟩) answer2
      simp only [MultCost.both] at returned
      simp only [returned, ran2, ran3, Option.bind_eq_bind, Option.bind_some]
      refine ⟨_, _, rfl, fun alg variant chosen => ?_⟩
      split at chosen
      · rename_i less
        obtain ⟨rfl, rfl⟩ := Prod.mk.inj (Option.some.inj chosen)
        obtain ⟨⟨ops, c, found, known, constant⟩, -⟩ | ⟨-, short, failed⟩ := answer3
        · exact ⟨ops, found, expandMultConst_eq known constant⟩
        · rw [not_less_of_failed nonneg short failed] at less
          cases less
      · cases chosen

end Variants

/-- `synth_mult` and `choose_mult_variant` are correct where they are safe; and a
multiplier, a mode and a limit for which `synth_mult` is correct under all costs are safe under
all costs. -/
theorem constant_multiplication_correct (target : Target) (mode : Nat) :
    (∀ (costs : Costs) (t : BitVec target.host) (costLimit : MultCost),
      SynthSafe target costs mode t.toNat costLimit →
        SynthCorrect target costs mode t.toNat costLimit) ∧
    (∀ (t : BitVec target.host) (costLimit : MultCost),
      (∀ costs, SynthCorrect target costs mode t.toNat costLimit) ↔
        ∀ costs, SynthSafe target costs mode t.toNat costLimit) ∧
    ∀ (costs : Costs) (val : BitVec target.host) (multCost : Int),
      ChooseSafe target costs mode val.toNat multCost →
        ChooseCorrect target costs mode val.toNat multCost :=
  ⟨fun _ t _ => synthCorrect_of_safe t.isLt,
    fun t _ => ⟨synthSafe_of_correct t.isLt, fun safe _ => synthCorrect_of_safe t.isLt (safe _)⟩,
    fun _ val _ => chooseCorrect_of_safe val.isLt⟩

/-- A 64-bit host and target; the mode's number is its size. -/
def wordTarget : Target where
  host := 64
  bitsPerWord := 64
  maxBitsPerWord := 64
  modeBitsize := fun mode => mode
  int_le_host := by decide
  one_lt_word := by decide
  word_le_max := by decide

/-- Multiplication by 45 in 32 bits; multiplication by `2 ^ 64 - 1` in 128 bits under a bound
that is lost from the start. -/
theorem multiplication_by_45_correct :
    SynthCorrect wordTarget (uniformCosts 4) 32 45 ⟨100, 100⟩ ∧
      ChooseCorrect wordTarget (uniformCosts 4) 32 45 60 ∧
      ChooseCorrect wordTarget (uniformCosts 4) 128 (2 ^ 64 - 1) 0 := by
  refine ⟨?_, ?_, ?_⟩
  · exact (constant_multiplication_correct wordTarget 32).1 _ (BitVec.ofNat 64 45) ⟨100, 100⟩
      ⟨.inl (.inl (by decide)), .inl (by decide)⟩
  · exact (constant_multiplication_correct wordTarget 32).2.2 _ (BitVec.ofNat 64 45) 60
      (.inr ⟨.inl (by decide), .inl (by decide)⟩)
  · have value : (BitVec.allOnes 64).toNat = 2 ^ 64 - 1 := BitVec.toNat_allOnes
    rw [← value]
    exact (constant_multiplication_correct wordTarget 128).2.2 _ (.allOnes 64) 0
      (.inr ⟨.inl (by decide), .inr ⟨fun _ => .inl (by decide), fun zero => absurd zero (by decide)⟩⟩)

/-- Multiplication by `2 ^ 64 - 1` in a 128-bit mode, and multiplication by 5
under the largest limit. -/
theorem largest_not_synthCorrect :
    ¬ SynthCorrect wordTarget (uniformCosts 0) 128 (2 ^ 64 - 1) ⟨100, 100⟩ ∧
      ¬ SynthCorrect wordTarget (uniformCosts 40000) 32 5 ⟨32767, 32767⟩ := by
  refine ⟨not_synthCorrect_of_wide ?_ ?_, not_synthCorrect_of_largest ?_ rfl ?_⟩
  · decide
  · decide
  · decide
  · decide

end GccCil.Expmed.SynthMult
