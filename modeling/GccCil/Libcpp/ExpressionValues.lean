import GccCil.Libcpp.NumValues
import GccCil.Libcpp.SkippedEvaluation

/-!
# The value of an `#if`

In C an operand has a value only where it is evaluated, and a division by zero
has none.  The preprocessor evaluates every operand, so that one which C leaves
out may have any value; only its signedness matters then.
-/

namespace GccCil.Libcpp

variable {part precision : Nat}

def Op.resultUnsigned (op : Op) (left right : Bool) : Bool :=
  match op with
  | .greater | .less | .greaterEq | .lessEq | .eqEq | .notEq | .andAnd | .orOr => false
  | .lshift | .rshift => left
  | .plus | .minus | .mult | .div | .mod | .and | .or | .xor | .min | .max => left || right
  | _ => right

def Op.unaryUnsigned (op : Op) (operand : Bool) : Bool :=
  match op with
  | .uplus | .uminus | .compl => operand
  | _ => false

def Tree.isUnsigned : Tree part → Bool
  | .value num => num.unsignedp
  | .paren inner => inner.isUnsigned
  | .unary _ op operand => op.unaryUnsigned operand.isUnsigned
  | .binary _ op left right => op.resultUnsigned left.isUnsigned right.isUnsigned
  | .conditional _ first second => first.isUnsigned || second.isUnsigned

def Op.unaryValue (op : Op) (precision : Nat) (unsigned : Bool) (x : Int) : Int :=
  match op with
  | .uplus => x
  | .uminus => wrapTo precision unsigned (-x)
  | .compl => wrapTo precision unsigned (-x - 1)
  | _ => (decide (x = 0)).toNat

/-- The operators that evaluate both operands.  A division by zero has no value, and a shift has
none whose count is negative or not below the precision. -/
def Op.binaryValue (op : Op) (precision : Nat) (leftUnsigned rightUnsigned : Bool) (x y : Int) :
    Option Int :=
  let unsigned := leftUnsigned || rightUnsigned
  let left := wrapTo precision unsigned x
  let right := wrapTo precision unsigned y
  match op with
  | .greater => some (decide (right < left)).toNat
  | .less => some (decide (left < right)).toNat
  | .greaterEq => some (decide (right ≤ left)).toNat
  | .lessEq => some (decide (left ≤ right)).toNat
  | .eqEq => some (decide (left = right)).toNat
  | .notEq => some (!decide (left = right)).toNat
  | .plus => some (wrapTo precision unsigned (left + right))
  | .minus => some (wrapTo precision unsigned (left - right))
  | .mult => some (wrapTo precision unsigned (left * right))
  | .div => if y = 0 then none else some (wrapTo precision unsigned (left.tdiv right))
  | .mod => if y = 0 then none else some (wrapTo precision unsigned (left.tmod right))
  | .and | .or | .xor =>
    some (wrapTo precision unsigned
      (op.bits (BitVec.ofInt precision x) (BitVec.ofInt precision y)).toNat)
  | .lshift =>
    if 0 ≤ y ∧ y < precision then
      some (wrapTo precision leftUnsigned (x * (2 ^ y.toNat : Nat)))
    else none
  | .rshift =>
    if 0 ≤ y ∧ y < precision then
      some (wrapTo precision leftUnsigned (x / (2 ^ y.toNat : Nat)))
    else none
  | .min => some (if left < right then left else right)
  | .max => some (if left < right then right else left)
  | _ => some y

/-- The value of an expression in C, with types of the precision. -/
def Tree.valueOfC (precision : Nat) : Tree part → Option Int
  | .value num => some (num.value precision num.unsignedp)
  | .paren inner => inner.valueOfC precision
  | .unary _ op operand =>
    (operand.valueOfC precision).map (op.unaryValue precision operand.isUnsigned)
  | .binary _ op left right => do
      let first ← left.valueOfC precision
      if op = .andAnd ∧ first = 0 then return 0
      else if op = .orOr ∧ first ≠ 0 then return 1
      else
        let second ← right.valueOfC precision
        if op = .andAnd ∨ op = .orOr then return (decide (second ≠ 0)).toNat
        else op.binaryValue precision left.isUnsigned right.isUnsigned first second
  | .conditional condition first second => do
      let unsigned := first.isUnsigned || second.isUnsigned
      if (← condition.valueOfC precision) = 0 then
        (second.valueOfC precision).map (wrapTo precision unsigned)
      else (first.valueOfC precision).map (wrapTo precision unsigned)

/-- The numbers are those of the precision.  An unsigned divisor of a signed
dividend has a value that is not zero, since a division by zero leaves the
dividend signed. -/
def Tree.Typed (precision : Nat) : Tree part → Prop
  | .value num => num.Trimmed precision
  | .paren inner => inner.Typed precision
  | .unary _ _ operand => operand.Typed precision
  | .binary _ op left right => left.Typed precision ∧ right.Typed precision ∧
      (op = .div ∨ op = .mod → right.isUnsigned = true → left.isUnsigned = true ∨
        (right.valueOfC precision).any (fun y => y ≠ 0) = true)
  | .conditional condition first second =>
    condition.Typed precision ∧ first.Typed precision ∧ second.Typed precision

/-- An evaluation ends in a number of the signedness, which has the value in C where there is
one. -/
def Evaluates (precision : Nat) (value : Option (CppNum part)) (unsigned : Bool)
    (valueOfC : Option Int) : Prop :=
  ∃ num x, value = some num ∧ HasValue num precision unsigned x ∧
    (valueOfC = none ∨ valueOfC = some x)

theorem HasValue.evaluates {num : CppNum part} {unsigned : Bool} {x : Int}
    (hasValue : HasValue num precision unsigned x) :
    Evaluates precision (some num) unsigned (some x) :=
  ⟨num, x, rfl, hasValue, .inr rfl⟩

section Operators

variable {num lhs rhs : CppNum part} {unsigned lhsUnsigned rhsUnsigned : Bool} {x y z : Int}

theorem evaluates_num (trimmed : num.Trimmed precision) (signedness : num.unsignedp = unsigned) :
    Evaluates precision (some num) unsigned none :=
  ⟨num, _, rfl, ⟨trimmed, signedness, rfl⟩, .inl rfl⟩

variable (widths : Widths part precision)
include widths

theorem HasValue.unary (hasValue : HasValue num precision unsigned x) (op : Op) :
    HasValue (numUnaryOp num op precision) precision (op.unaryUnsigned unsigned)
      (op.unaryValue precision unsigned x) := by
  have logical : HasValue (numOfBool part (numZerop num)) precision false
      (decide (x = 0)).toNat :=
    hasValue.zerop_eq widths ▸ hasValue_ofBool widths (numZerop num)
  have value := hasValue.value
  cases op with
  | uplus => exact ⟨hasValue.trimmed, hasValue.signedness, value⟩
  | uminus => exact value ▸ numNegate_value widths hasValue.signedness
  | compl => exact value ▸ numCompl_value widths hasValue.signedness
  | _ => exact logical

theorem HasValue.operands (isLeft : HasValue lhs precision lhsUnsigned x)
    (isRight : HasValue rhs precision rhsUnsigned y) :
    Operands lhs rhs precision (lhsUnsigned || rhsUnsigned)
      (wrapTo precision (lhsUnsigned || rhsUnsigned) x)
      (wrapTo precision (lhsUnsigned || rhsUnsigned) y) :=
  ⟨isLeft.trimmed, isRight.trimmed, by rw [isLeft.signedness, isRight.signedness],
    value_of_modEq widths.positive isLeft.trimmed isLeft.modEq _,
    value_of_modEq widths.positive isRight.trimmed isRight.modEq _⟩

theorem HasValue.shift (isLeft : HasValue lhs precision lhsUnsigned x)
    (isRight : HasValue rhs precision rhsUnsigned y) (leftward : Bool) :
    Evaluates precision (some (numShift lhs rhs leftward precision)) lhsUnsigned
      (if 0 ≤ y ∧ y < precision then some (wrapTo precision lhsUnsigned
        (if leftward then x * (2 ^ y.toNat : Nat) else x / (2 ^ y.toNat : Nat))) else none) := by
  by_cases inside : 0 ≤ y ∧ y < precision
  · have shifted := numShift_value widths isLeft.trimmed isLeft.signedness
      (isRight.signedness.symm ▸ isRight) inside.1 inside.2 leftward
    rw [isLeft.value] at shifted
    rw [if_pos inside]
    exact shifted.evaluates
  · obtain ⟨trimmed, signedness⟩ := numShift_trimmed widths lhs rhs leftward
    rw [if_neg inside]
    exact evaluates_num trimmed (signedness.trans isLeft.signedness)

theorem HasValue.divide (isLeft : HasValue lhs precision lhsUnsigned x)
    (isRight : HasValue rhs precision rhsUnsigned y) {op : Op} (operator : op = .div ∨ op = .mod)
    (typed : rhsUnsigned = true → lhsUnsigned = true ∨ y ≠ 0) :
    Evaluates precision (numDivOp lhs rhs op precision) (lhsUnsigned || rhsUnsigned)
      (op.binaryValue precision lhsUnsigned rhsUnsigned x y) := by
  have operands := isLeft.operands widths isRight
  have isZero : wrapTo precision (lhsUnsigned || rhsUnsigned) y = 0 ↔ y = 0 := by
    rw [← operands.rhsValue, ← decide_eq_decide, ← isRight.trimmed.zerop_eq widths,
      isRight.zerop_eq widths]
  obtain ⟨num, ends, trimmed, byZero, byNonzero⟩ := numDivOp_value widths operands operator
  rw [ends]
  by_cases zero : y = 0
  · have common : lhsUnsigned = (lhsUnsigned || rhsUnsigned) := by
      cases rhsUnsigned with
      | false => exact (Bool.or_false lhsUnsigned).symm
      | true =>
        rw [(typed rfl).resolve_right (not_not_intro zero)]
        rfl
    have undefined : op.binaryValue precision lhsUnsigned rhsUnsigned x y = none := by
      obtain rfl | rfl := operator <;> exact if_pos zero
    rw [undefined]
    exact evaluates_num trimmed ((byZero (isZero.mpr zero)).trans (isLeft.signedness.trans common))
  · refine ⟨num, _, rfl, byNonzero (mt isZero.mp zero), .inr ?_⟩
    obtain rfl | rfl := operator <;> exact if_neg zero

theorem evaluates_binary (isLeft : HasValue lhs precision lhsUnsigned x)
    (isRight : HasValue rhs precision rhsUnsigned y) {op : Op} (notAnd : op ≠ .andAnd)
    (notOr : op ≠ .orOr)
    (typed : op = .div ∨ op = .mod → rhsUnsigned = true → lhsUnsigned = true ∨ y ≠ 0) :
    Evaluates precision (evalBinary precision op lhs rhs)
      (op.resultUnsigned lhsUnsigned rhsUnsigned)
      (op.binaryValue precision lhsUnsigned rhsUnsigned x y) := by
  have operands := isLeft.operands widths isRight
  have compared : ∀ {num : CppNum part} {value : Bool}, num = numOfBool part value →
      Evaluates precision (some num) false (some value.toNat) := by
    rintro _ value rfl
    exact (hasValue_ofBool widths value).evaluates
  have bits := numBitwiseOp_value widths operands op
  have equal := numEq_eq widths operands
  obtain ⟨greaterEq, less, greater, lessEq⟩ := numInequalityOp_eq widths operands
  rw [word_of_modEq isLeft.trimmed isLeft.modEq, word_of_modEq isRight.trimmed isRight.modEq]
    at bits
  cases op with
  | greaterEq => exact compared greaterEq
  | less => exact compared less
  | greater => exact compared greater
  | lessEq => exact compared lessEq
  | eqEq => exact compared (congrArg (numOfBool part) equal)
  | notEq => exact compared (congrArg (fun same => numOfBool part (!same)) equal)
  | plus => exact (numPlus_value widths operands).evaluates
  | minus => exact (numMinus_value widths operands).evaluates
  | mult => exact (numMul_value widths operands).evaluates
  | and | or | xor => exact bits.evaluates
  | min => exact (numExtremes_value widths operands).1.evaluates
  | max => exact (numExtremes_value widths operands).2.evaluates
  | lshift => exact isLeft.shift widths isRight true
  | rshift => exact isLeft.shift widths isRight false
  | div => exact isLeft.divide widths isRight (.inl rfl) (typed (.inl rfl))
  | mod => exact isLeft.divide widths isRight (.inr rfl) (typed (.inr rfl))
  | andAnd => exact absurd rfl notAnd
  | orOr => exact absurd rfl notOr
  | _ => exact isRight.evaluates

theorem HasValue.select (isTested : HasValue num precision unsigned z)
    (isLeft : HasValue lhs precision lhsUnsigned x)
    (isRight : HasValue rhs precision rhsUnsigned y) :
    HasValue (numConditional num lhs rhs) precision (lhsUnsigned || rhsUnsigned)
      (wrapTo precision (lhsUnsigned || rhsUnsigned) (if z = 0 then y else x)) := by
  have common : (numConditional num lhs rhs).unsignedp = (lhsUnsigned || rhsUnsigned) := by
    rw [← isLeft.signedness, ← isRight.signedness]
    rfl
  have selected : (numConditional num lhs rhs).toNat = (if z = 0 then rhs else lhs).toNat := by
    change (if !numZerop num then lhs else rhs).toNat = _
    rw [isTested.zerop_eq widths]
    by_cases zero : z = 0 <;> simp [zero]
  refine hasValue_of_modEq widths.positive ?_ common ?_ <;>
    simp only [CppNum.Trimmed, selected] <;> split_ifs
  · exact isRight.trimmed
  · exact isLeft.trimmed
  · exact isRight.modEq
  · exact isLeft.modEq

end Operators

section Trees

theorem Tree.run_value (tree : Tree part) (skipEval : Int) :
    (tree.run precision skipEval).map Outcome.value = tree.value? precision := by
  induction tree generalizing skipEval with
  | value num => rfl
  | paren inner ih => exact ih skipEval
  | unary token op operand ih =>
    rw [Tree.run, Tree.value?, ← ih skipEval]
    cases operand.run precision skipEval <;> rfl
  | binary token op left right leftHypothesis rightHypothesis =>
    rw [Tree.run, Tree.value?, ← leftHypothesis skipEval]
    cases left.run precision skipEval with
    | none => rfl
    | some first =>
      simp only [Option.bind_eq_bind, Option.bind_some, Option.map_some]
      split
      case isTrue =>
        rw [← rightHypothesis (if numZerop first.value then skipEval + 1 else skipEval)]
        cases right.run precision _ <;> rfl
      case isFalse =>
        split
        case isTrue =>
          rw [← rightHypothesis (if !numZerop first.value then skipEval + 1 else skipEval)]
          cases right.run precision _ <;> rfl
        case isFalse =>
          rw [← rightHypothesis skipEval]
          cases right.run precision skipEval with
          | none => rfl
          | some second =>
            simp only [Option.bind_some, Option.map_some]
            cases evalBinary precision op first.value second.value <;> rfl
  | conditional condition first second conditionHypothesis firstHypothesis secondHypothesis =>
    rw [Tree.run, Tree.value?, ← conditionHypothesis skipEval]
    cases condition.run precision skipEval with
    | none => rfl
    | some tested =>
      simp only [Option.bind_eq_bind, Option.bind_some, Option.map_some]
      rw [← firstHypothesis (if numZerop tested.value then skipEval + 1 else skipEval),
        ← secondHypothesis (if !numZerop tested.value then skipEval + 1 else skipEval)]
      cases first.run precision _ with
      | none => rfl
      | some one => cases second.run precision _ <;> rfl

/-- The preprocessor evaluates the tree to its value in C. -/
def Tree.Evaluated (precision : Nat) (tree : Tree part) : Prop :=
  Evaluates precision (tree.value? precision) tree.isUnsigned (tree.valueOfC precision)

variable (widths : Widths part precision)
include widths

theorem evaluated_logical {token : Nat} {op : Op} {left right : Tree part}
    (logical : op = .andAnd ∨ op = .orOr) (leftEvaluated : left.Evaluated precision)
    (rightEvaluated : right.Evaluated precision) :
    (Tree.binary token op left right).Evaluated precision := by
  obtain ⟨first, x, leftValue, isFirst, leftAgrees⟩ := leftEvaluated
  obtain ⟨second, y, rightValue, isSecond, rightAgrees⟩ := rightEvaluated
  have leftTruth := isFirst.zerop_eq widths
  have rightTruth := isSecond.zerop_eq widths
  obtain rfl | rfl := logical
  · refine ⟨_, _, ?_, hasValue_ofBool widths (!decide (x = 0) && !decide (y = 0)), ?_⟩
    · simp [Tree.value?, leftValue, rightValue, leftTruth, rightTruth]
    · obtain left | left := leftAgrees
      · simp [Tree.valueOfC, left]
      · by_cases zero : x = 0
        · simp [Tree.valueOfC, left, zero]
        · obtain right | right := rightAgrees <;> simp [Tree.valueOfC, left, right, zero]
  · refine ⟨_, _, ?_, hasValue_ofBool widths (!decide (x = 0) || !decide (y = 0)), ?_⟩
    · simp [Tree.value?, leftValue, rightValue, leftTruth, rightTruth]
    · obtain left | left := leftAgrees
      · simp [Tree.valueOfC, left]
      · by_cases zero : x = 0
        · obtain right | right := rightAgrees <;> simp [Tree.valueOfC, left, right, zero]
        · simp [Tree.valueOfC, left, zero]

theorem evaluated_arithmetic {token : Nat} {op : Op} {left right : Tree part}
    (notAnd : op ≠ .andAnd) (notOr : op ≠ .orOr) (leftEvaluated : left.Evaluated precision)
    (rightEvaluated : right.Evaluated precision)
    (divides : op = .div ∨ op = .mod → right.isUnsigned = true → left.isUnsigned = true ∨
      (right.valueOfC precision).any (fun y => y ≠ 0) = true) :
    (Tree.binary token op left right).Evaluated precision := by
  obtain ⟨first, x, leftValue, isFirst, leftAgrees⟩ := leftEvaluated
  obtain ⟨second, y, rightValue, isSecond, rightAgrees⟩ := rightEvaluated
  have typed : op = .div ∨ op = .mod → right.isUnsigned = true →
      left.isUnsigned = true ∨ y ≠ 0 := by
    intro operator unsigned
    refine (divides operator unsigned).imp_right fun nonzero => ?_
    obtain none | some := rightAgrees
    · rw [none] at nonzero
      exact absurd nonzero Bool.false_ne_true
    · rw [some] at nonzero
      exact of_decide_eq_true nonzero
  obtain ⟨num, value, ends, hasValue, agrees⟩ :=
    evaluates_binary widths isFirst isSecond notAnd notOr typed
  refine ⟨num, value, ?_, hasValue, ?_⟩
  · simp [Tree.value?, leftValue, rightValue, notAnd, notOr, ends]
  · obtain left | left := leftAgrees
    · simp [Tree.valueOfC, left]
    · obtain right | right := rightAgrees
      · simp [Tree.valueOfC, left, right, notAnd, notOr]
      · simpa [Tree.valueOfC, left, right, notAnd, notOr] using agrees

theorem evaluated_conditional {condition first second : Tree part}
    (conditionEvaluated : condition.Evaluated precision) (firstEvaluated : first.Evaluated precision)
    (secondEvaluated : second.Evaluated precision) :
    (Tree.conditional condition first second).Evaluated precision := by
  obtain ⟨tested, x, testedValue, isTested, testedAgrees⟩ := conditionEvaluated
  obtain ⟨one, y, oneValue, isOne, oneAgrees⟩ := firstEvaluated
  obtain ⟨two, z, twoValue, isTwo, twoAgrees⟩ := secondEvaluated
  refine ⟨_, _, ?_, isTested.select widths isOne isTwo, ?_⟩
  · simp [Tree.value?, testedValue, oneValue, twoValue]
  · obtain tested | tested := testedAgrees
    · simp [Tree.valueOfC, tested]
    · by_cases zero : x = 0
      · obtain two | two := twoAgrees <;> simp [Tree.valueOfC, tested, zero, two]
      · obtain one | one := oneAgrees <;> simp [Tree.valueOfC, tested, zero, one]

theorem Tree.evaluated (tree : Tree part) (typed : tree.Typed precision) :
    tree.Evaluated precision := by
  induction tree with
  | value num => exact HasValue.evaluates ⟨typed, rfl, rfl⟩
  | paren inner ih => exact ih typed
  | unary token op operand ih =>
    obtain ⟨num, x, value, hasValue, agrees⟩ := ih typed
    refine ⟨_, _, ?_, hasValue.unary widths op, ?_⟩
    · rw [Tree.value?, value, Option.map_some]
    · rw [Tree.valueOfC]
      exact agrees.imp (fun none => by rw [none]; rfl) (fun some => by rw [some]; rfl)
  | binary token op left right leftHypothesis rightHypothesis =>
    obtain ⟨leftTyped, rightTyped, divides⟩ := typed
    by_cases logical : op = .andAnd ∨ op = .orOr
    · exact evaluated_logical widths logical (leftHypothesis leftTyped)
        (rightHypothesis rightTyped)
    · obtain ⟨notAnd, notOr⟩ := not_or.mp logical
      exact evaluated_arithmetic widths notAnd notOr (leftHypothesis leftTyped)
        (rightHypothesis rightTyped) divides
  | conditional condition first second conditionHypothesis firstHypothesis secondHypothesis =>
    obtain ⟨conditionTyped, firstTyped, secondTyped⟩ := typed
    exact evaluated_conditional widths (conditionHypothesis conditionTyped)
      (firstHypothesis firstTyped) (secondHypothesis secondTyped)

/-- An `#if` whose expression has a value in C has that value, and the truth value that goes with
it, whatever its unevaluated operands are. -/
theorem parseExpr_value {tokens : List (Token part)} {tree : Tree part}
    (expression : IsExpression tokens tree) (delimited : tree.delimited = true)
    (typed : tree.Typed precision) :
    ∃ final, parseExpr precision tokens = .ok final ∧
      final.result.unsignedp = tree.isUnsigned ∧
      ∀ x, tree.valueOfC precision = some x →
        final.result.value precision tree.isUnsigned = x ∧
          numZerop final.result = decide (x = 0) := by
  obtain ⟨num, x, value, hasValue, agrees⟩ := tree.evaluated widths typed
  rw [← tree.run_value 0] at value
  obtain ⟨outcome, run, rfl⟩ := Option.map_eq_some_iff.mp value
  refine ⟨_, parseExpr_of_derives (expression.of_delimited delimited) run, hasValue.signedness, ?_⟩
  intro expected valueOfC
  obtain rfl : x = expected := by
    obtain none | some := agrees
    · rw [none] at valueOfC
      cases valueOfC
    · exact Option.some.inj (some.symm.trans valueOfC)
  exact ⟨hasValue.value, hasValue.zerop_eq widths⟩

omit widths

theorem parseExpr_value_unselected :
    ∃ final, parseExpr 64 unselectedDivision = .ok final ∧
      final.result.unsignedp = unselectedDivisionTree.isUnsigned ∧
      ∀ x, unselectedDivisionTree.valueOfC 64 = some x →
        final.result.value 64 unselectedDivisionTree.isUnsigned = x ∧
          numZerop final.result = decide (x = 0) :=
  have zero : (signedNum 64 0).Trimmed 64 := Nat.lt_of_sub_eq_succ rfl
  have three : (signedNum 64 3).Trimmed 64 := Nat.lt_of_sub_eq_succ rfl
  have four : (signedNum 64 4).Trimmed 64 := Nat.lt_of_sub_eq_succ rfl
  parseExpr_value ⟨by decide, by decide, .inl le_rfl⟩ unselectedDivision_isExpression (by decide)
    ⟨zero, ⟨three, zero, fun _ unsigned => absurd unsigned (by decide)⟩, four⟩

end Trees

end GccCil.Libcpp
