import GccCil.Libcpp.Acceptance
import GccCil.Libcpp.Conditionals

/-!
# Skipped evaluation

`skip_eval` is raised when an operator is pushed and lowered when it is
reduced.  An expression leaves it as it was.  Inside a delimited expression it
is raised for the operands that C does not evaluate and for no others, so that
faults are diagnosed for the operators that C evaluates.
-/

namespace GccCil.Libcpp

section Occurrences

variable {part : Nat} (precision : Nat)

/-- The value of a tree, with the arithmetic of the preprocessor; `none` where
that does not end. -/
def Tree.value? : Tree part → Option (CppNum part)
  | .value num => some num
  | .paren inner => inner.value?
  | .unary _ op operand => operand.value?.map fun inner => numUnaryOp inner op precision
  | .binary _ op left right => do
      let first ← left.value?
      let second ← right.value?
      if op = .andAnd then
        return numOfBool part (!numZerop first && !numZerop second)
      else if op = .orOr then
        return numOfBool part (!numZerop first || !numZerop second)
      else evalBinary precision op first second
  | .conditional condition first second => do
      return numConditional (← condition.value?) (← first.value?) (← second.value?)

/-- An operator of an expression, and whether it lies in an operand that C does
not evaluate. -/
structure Occurrence where
  token : Nat
  unevaluated : Bool
  faults : List Diagnostic

def Tree.isZero (tree : Tree part) : Bool := (tree.value? precision).any numZerop

def Tree.isNonzero (tree : Tree part) : Bool :=
  (tree.value? precision).any fun num => !numZerop num

/-- What is wrong with the evaluation of the operator of a node. -/
def nodeFaults (op : Op) (right whole : Tree part) : List Diagnostic :=
  match right.value? precision, whole.value? precision with
  | some rhs, some result => faults op rhs result
  | _, _ => []

/-- C does not evaluate the right operand of `&&` where the left one is zero, nor
that of `||` where it is not. -/
def Tree.skipsRight (op : Op) (left : Tree part) : Bool :=
  match op with
  | .andAnd => left.isZero precision
  | .orOr => left.isNonzero precision
  | _ => false

def Tree.occurrences : Tree part → Bool → List Occurrence
  | .value _, _ => []
  | .paren inner, unevaluated => inner.occurrences unevaluated
  | .unary token op operand, unevaluated =>
    operand.occurrences unevaluated ++
      [⟨token, unevaluated, nodeFaults precision op operand (.unary token op operand)⟩]
  | .binary token op left right, unevaluated =>
    left.occurrences unevaluated ++
      right.occurrences (unevaluated || left.skipsRight precision op) ++
      [⟨token, unevaluated, nodeFaults precision op right (.binary token op left right)⟩]
  | .conditional condition first second, unevaluated =>
    condition.occurrences unevaluated ++
      first.occurrences (unevaluated || condition.isZero precision) ++
      second.occurrences (unevaluated || condition.isNonzero precision)

def Occurrence.diagnosed (occurrence : Occurrence) : List (Nat × Diagnostic) :=
  if occurrence.unevaluated then []
  else occurrence.faults.map fun fault => (occurrence.token, fault)

end Occurrences

section Reports

variable {part : Nat} {precision : Nat}

/-- The operators were evaluated under a raised `skip_eval` where C does not
evaluate them, and diagnosed where it does. -/
def Reports (evaluated : List (Nat × Int)) (diagnostics : List (Nat × Diagnostic))
    (occurrences : List Occurrence) : Prop :=
  evaluated.map (fun node => (node.1, decide (0 < node.2))) =
      occurrences.map (fun occurrence => (occurrence.token, occurrence.unevaluated)) ∧
    diagnostics = occurrences.flatMap Occurrence.diagnosed

theorem Reports.append {evaluated evaluated' : List (Nat × Int)}
    {diagnostics diagnostics' : List (Nat × Diagnostic)}
    {occurrences occurrences' : List Occurrence}
    (first : Reports evaluated diagnostics occurrences)
    (second : Reports evaluated' diagnostics' occurrences') :
    Reports (evaluated ++ evaluated') (diagnostics ++ diagnostics')
      (occurrences ++ occurrences') := by
  obtain ⟨flags, rfl⟩ := first
  obtain ⟨flags', rfl⟩ := second
  exact ⟨by rw [List.map_append, List.map_append, flags, flags'],
    List.flatMap_append.symm⟩

theorem Reports.operator {evaluated : List (Nat × Int)} {diagnostics : List (Nat × Diagnostic)}
    {occurrences : List Occurrence} {token : Nat} {skipEval : Int} {found : List Diagnostic}
    {value : CppNum part} (operands : Reports evaluated diagnostics occurrences)
    (nonneg : 0 ≤ skipEval) :
    Reports (operatorOutcome token skipEval found value evaluated diagnostics).evaluated
      (operatorOutcome token skipEval found value evaluated diagnostics).diagnostics
      (occurrences ++ [⟨token, decide (0 < skipEval), found⟩]) := by
  apply operands.append
  refine ⟨rfl, ?_⟩
  obtain positive | rfl := nonneg.lt_or_eq
  · simp [Occurrence.diagnosed, positive, positive.ne']
  · simp [Occurrence.diagnosed]

theorem raised_pos {skipEval : Int} (raises : Bool) (nonneg : 0 ≤ skipEval) :
    decide (0 < if raises then skipEval + 1 else skipEval) = (decide (0 < skipEval) || raises) := by
  cases raises with
  | false => simp
  | true =>
    have positive : 0 < skipEval + 1 := by omega
    simp [positive]

theorem raised_nonneg {skipEval : Int} (raises : Bool) (nonneg : 0 ≤ skipEval) :
    0 ≤ if raises then skipEval + 1 else skipEval := by
  cases raises with
  | false => exact nonneg
  | true => exact Int.add_nonneg nonneg Int.one_nonneg

theorem nodeFaults_eq {op : Op} {right whole : Tree part} {rhs result : CppNum part}
    (rightValue : right.value? precision = some rhs)
    (wholeValue : whole.value? precision = some result) :
    nodeFaults precision op right whole = faults op rhs result := by
  rw [nodeFaults, rightValue, wholeValue]

/-- Evaluating the tree under a `skip_eval` has its value, and reports its
operators. -/
def RunReports (precision : Nat) (tree : Tree part) : Prop :=
  ∀ (skipEval : Int) (outcome : Outcome part), 0 ≤ skipEval →
    tree.run precision skipEval = some outcome →
    tree.value? precision = some outcome.value ∧
      Reports outcome.evaluated outcome.diagnostics
        (tree.occurrences precision (decide (0 < skipEval)))

theorem runReports_unary {token : Nat} {op : Op} {operand : Tree part}
    (ih : RunReports precision operand) : RunReports precision (.unary token op operand) := by
  intro skipEval outcome nonneg run
  simp only [Tree.run, bind, Option.bind_eq_some_iff, pure, Option.some.injEq] at run
  obtain ⟨inner, innerRun, rfl⟩ := run
  obtain ⟨innerValue, innerReports⟩ := ih skipEval inner nonneg innerRun
  have value : (Tree.unary token op operand).value? precision =
      some (numUnaryOp inner.value op precision) := by
    rw [Tree.value?, innerValue]
    rfl
  refine ⟨value, ?_⟩
  rw [Tree.occurrences, nodeFaults_eq innerValue value]
  exact innerReports.operator nonneg

theorem isZero_eq {tree : Tree part} {num : CppNum part}
    (value : tree.value? precision = some num) : tree.isZero precision = numZerop num := by
  rw [Tree.isZero, value, Option.any_some]

theorem isNonzero_eq {tree : Tree part} {num : CppNum part}
    (value : tree.value? precision = some num) : tree.isNonzero precision = !numZerop num := by
  rw [Tree.isNonzero, value, Option.any_some]

/-- A binary operator, whose right operand is run under a `skip_eval` that is
raised where C does not evaluate it. -/
theorem runReports_node {token : Nat} {op : Op} {left right : Tree part} {skipEval : Int}
    {first second : Outcome part} {result : CppNum part} (raises : Bool) (nonneg : 0 ≤ skipEval)
    (leftIh : RunReports precision left) (rightIh : RunReports precision right)
    (leftRun : left.run precision skipEval = some first)
    (skips : left.value? precision = some first.value → left.skipsRight precision op = raises)
    (rightRun : right.run precision (if raises then skipEval + 1 else skipEval) = some second)
    (value : left.value? precision = some first.value → right.value? precision = some second.value →
      (Tree.binary token op left right).value? precision = some result) :
    (Tree.binary token op left right).value? precision = some result ∧
      Reports
        (operatorOutcome token skipEval (faults op second.value result) result
          (first.evaluated ++ second.evaluated) (first.diagnostics ++ second.diagnostics)).evaluated
        (operatorOutcome token skipEval (faults op second.value result) result
          (first.evaluated ++ second.evaluated)
          (first.diagnostics ++ second.diagnostics)).diagnostics
        ((Tree.binary token op left right).occurrences precision (decide (0 < skipEval))) := by
  obtain ⟨leftValue, leftReports⟩ := leftIh skipEval first nonneg leftRun
  obtain ⟨rightValue, rightReports⟩ := rightIh _ second (raised_nonneg raises nonneg) rightRun
  have whole := value leftValue rightValue
  rw [raised_pos raises nonneg] at rightReports
  refine ⟨whole, ?_⟩
  rw [Tree.occurrences, nodeFaults_eq rightValue whole, skips leftValue]
  exact (leftReports.append rightReports).operator nonneg

theorem faults_numOfBool {op : Op} {value : Bool} (rhs : CppNum part)
    (logical : op = .andAnd ∨ op = .orOr) : faults op rhs (numOfBool part value) = [] := by
  obtain rfl | rfl := logical <;> simp [faults, numOfBool]

theorem runReports_binary {token : Nat} {op : Op} {left right : Tree part}
    (leftIh : RunReports precision left) (rightIh : RunReports precision right) :
    RunReports precision (.binary token op left right) := by
  intro skipEval outcome nonneg run
  simp only [Tree.run, bind, Option.bind_eq_some_iff] at run
  obtain ⟨first, leftRun, run⟩ := run
  by_cases isAnd : op = .andAnd
  · subst isAnd
    simp only [if_true, Option.bind_eq_some_iff, pure, Option.some.injEq] at run
    obtain ⟨second, rightRun, rfl⟩ := run
    rw [← faults_numOfBool second.value (Or.inl rfl)]
    apply runReports_node _ nonneg leftIh rightIh leftRun isZero_eq rightRun
    intro leftValue rightValue
    simp [Tree.value?, leftValue, rightValue, operatorOutcome]
  · by_cases isOr : op = .orOr
    · subst isOr
      simp only [reduceCtorEq, if_false, if_true, Option.bind_eq_some_iff, pure,
        Option.some.injEq] at run
      obtain ⟨second, rightRun, rfl⟩ := run
      rw [← faults_numOfBool second.value (Or.inr rfl)]
      apply runReports_node _ nonneg leftIh rightIh leftRun isNonzero_eq rightRun
      intro leftValue rightValue
      simp [Tree.value?, leftValue, rightValue, operatorOutcome]
    · simp only [isAnd, isOr, if_false, Option.bind_eq_some_iff, pure, Option.some.injEq] at run
      obtain ⟨second, rightRun, result, evaluates, rfl⟩ := run
      apply runReports_node false nonneg leftIh rightIh leftRun _ rightRun
      · intro leftValue rightValue
        simp [Tree.value?, leftValue, rightValue, isAnd, isOr, evaluates, operatorOutcome]
      · intro leftValue
        cases op <;> first | rfl | contradiction

theorem runReports_conditional {condition first second : Tree part}
    (conditionIh : RunReports precision condition) (firstIh : RunReports precision first)
    (secondIh : RunReports precision second) :
    RunReports precision (.conditional condition first second) := by
  intro skipEval outcome nonneg run
  simp only [Tree.run, bind, Option.bind_eq_some_iff, pure, Option.some.injEq] at run
  obtain ⟨tested, conditionRun, one, firstRun, two, secondRun, rfl⟩ := run
  obtain ⟨testedValue, conditionReports⟩ := conditionIh skipEval tested nonneg conditionRun
  obtain ⟨oneValue, firstReports⟩ := firstIh _ one (raised_nonneg _ nonneg) firstRun
  obtain ⟨twoValue, secondReports⟩ := secondIh _ two (raised_nonneg _ nonneg) secondRun
  rw [raised_pos _ nonneg] at firstReports secondReports
  refine ⟨?_, ?_⟩
  · simp [Tree.value?, testedValue, oneValue, twoValue]
  · rw [Tree.occurrences, isZero_eq testedValue, isNonzero_eq testedValue]
    exact (conditionReports.append firstReports).append secondReports

theorem runReports (tree : Tree part) : RunReports precision tree := by
  induction tree with
  | value num =>
    intro skipEval outcome nonneg run
    cases run
    exact ⟨rfl, rfl, rfl⟩
  | paren inner ih => exact ih
  | unary token op operand ih => exact runReports_unary ih
  | binary token op left right leftIh rightIh => exact runReports_binary leftIh rightIh
  | conditional condition first second conditionIh firstIh secondIh =>
    exact runReports_conditional conditionIh firstIh secondIh

/-- An accepted sequence is an expression of C.  It leaves `skip_eval` as it
was; where it is delimited, `skip_eval` is raised for exactly the operators that
C does not evaluate, and the faults of the others are diagnosed. -/
theorem skipped_evaluation {tokens : List (Token part)} {final : Parser part}
    (accepted : parseExpr precision tokens = .ok final) :
    final.skipEval = (Parser.initial part).skipEval ∧
      (∃ tree : Tree part, IsExpression tokens tree) ∧
      ∀ tree : Tree part, IsExpression tokens tree → tree.delimited = true →
        Reports final.evaluated final.diagnostics (tree.occurrences precision false) := by
  obtain ⟨tree, outcome, derives, run, rfl⟩ := parseExpr_eq_ok_iff.mp accepted
  refine ⟨rfl, derives.inC, ?_⟩
  intro treeOfC expression delimited
  have derivesOfC := expression.of_delimited delimited
  cases runOfC : treeOfC.run precision 0 with
  | none =>
    rw [parseExpr_of_diverges derivesOfC runOfC] at accepted
    cases accepted
  | some outcomeOfC =>
    rw [parseExpr_of_derives derivesOfC runOfC] at accepted
    rw [← Except.ok.inj accepted]
    exact (runReports treeOfC 0 outcomeOfC (Int.le_refl 0) runOfC).2

end Reports

def signedNum (part low : Nat) : CppNum part := ⟨0, BitVec.ofNat part low, false, false⟩

theorem derives_constant (levels : ConditionalLevels) {level : Nat} (start low : Nat)
    (le : level ≤ 16) : Derives levels level start [.value (signedNum 64 low)]
      (.value (signedNum 64 low)) :=
  (Derives.value start _).lower le

theorem derives_quotient (levels : ConditionalLevels) (start : Nat) :
    Derives levels Op.div.prio start
      [.value (signedNum 64 3), .operator .div, .value (signedNum 64 0)]
      (.binary (start + 1) .div (.value (signedNum 64 3)) (.value (signedNum 64 0))) := by
  have isBinary : Op.div.isBinary = true := rfl
  exact Derives.binary isBinary (derives_constant levels start 3 (by decide))
    (derives_constant levels (start + 2) 0 (by decide))

/-- The tokens `0 ? 3 / 0 : 4`. -/
def unselectedDivision : List (Token 64) :=
  [.value (signedNum 64 0), .operator .query, .value (signedNum 64 3), .operator .div,
    .value (signedNum 64 0), .operator .colon, .value (signedNum 64 4)]

def unselectedDivisionTree : Tree 64 :=
  .conditional (.value (signedNum 64 0))
    (.binary 4 .div (.value (signedNum 64 3)) (.value (signedNum 64 0))) (.value (signedNum 64 4))

theorem unselectedDivision_isExpression :
    IsExpression unselectedDivision unselectedDivisionTree := by
  have whole : Derives conditionalOfC 4 1 unselectedDivision unselectedDivisionTree :=
    Derives.conditional (derives_constant _ 1 0 (by decide))
      ((derives_quotient _ 3).lower (by decide)) (derives_constant _ 7 4 (by decide))
  exact whole.lower (by decide)

/-- The division is not diagnosed, since C does not evaluate it. -/
theorem unselectedDivision_skipped :
    ∃ final : Parser 64, parseExpr 64 unselectedDivision = .ok final ∧ final.skipEval = 0 ∧
      Reports final.evaluated final.diagnostics
        (unselectedDivisionTree.occurrences 64 false) := by
  obtain ⟨outcome, run⟩ : ∃ outcome, unselectedDivisionTree.run 64 0 = some outcome := ⟨_, rfl⟩
  have accepted := parseExpr_of_derives
    (unselectedDivision_isExpression.of_delimited (by decide)) run
  obtain ⟨balanced, -, reports⟩ := skipped_evaluation accepted
  exact ⟨_, accepted, balanced, reports _ unselectedDivision_isExpression (by decide)⟩

/-- The tokens `1 ? 2 : 0 ? 3 / 0 : 4`. -/
def nestedDivision : List (Token 64) :=
  [.value (signedNum 64 1), .operator .query, .value (signedNum 64 2), .operator .colon] ++
    [.value (signedNum 64 0), .operator .query, .value (signedNum 64 3), .operator .div,
      .value (signedNum 64 0), .operator .colon, .value (signedNum 64 4)]

/-- In C the second conditional is the third operand of the first. -/
def nestedDivisionOfC : Tree 64 :=
  .conditional (.value (signedNum 64 1)) (.value (signedNum 64 2))
    (.conditional (.value (signedNum 64 0))
      (.binary 8 .div (.value (signedNum 64 3)) (.value (signedNum 64 0)))
      (.value (signedNum 64 4)))

/-- For `reduce` the first conditional is the first operand of the second. -/
def nestedDivisionOfReduce : Tree 64 :=
  .conditional
    (.conditional (.value (signedNum 64 1)) (.value (signedNum 64 2)) (.value (signedNum 64 0)))
    (.binary 8 .div (.value (signedNum 64 3)) (.value (signedNum 64 0)))
    (.value (signedNum 64 4))

theorem nestedDivision_isExpression : IsExpression nestedDivision nestedDivisionOfC := by
  have inner : Derives conditionalOfC 4 5 unselectedDivision _ :=
    Derives.conditional (derives_constant _ 5 0 (by decide))
      ((derives_quotient _ 7).lower (by decide)) (derives_constant _ 11 4 (by decide))
  have whole : Derives conditionalOfC 4 1 nestedDivision nestedDivisionOfC :=
    Derives.conditional (derives_constant _ 1 1 (by decide)) (derives_constant _ 3 2 (by decide))
      inner
  exact whole.lower (by decide)

theorem nestedDivision_derives :
    Derives conditionalOfReduce 2 1 nestedDivision nestedDivisionOfReduce := by
  have condition : Derives conditionalOfReduce 4 1
      [.value (signedNum 64 1), .operator .query, .value (signedNum 64 2), .operator .colon,
        .value (signedNum 64 0)] _ :=
    Derives.conditional (derives_constant _ 1 1 (by decide)) (derives_constant _ 3 2 (by decide))
      (derives_constant _ 5 0 (by decide))
  have whole : Derives conditionalOfReduce 4 1 nestedDivision nestedDivisionOfReduce :=
    Derives.conditional condition ((derives_quotient _ 7).lower (by decide))
      (derives_constant _ 11 4 (by decide))
  exact whole.lower (by decide)

/-- The division by zero is diagnosed, although it stands in an operand that C
does not evaluate. -/
theorem nestedDivision_diagnosed :
    ∃ final : Parser 64, parseExpr 64 nestedDivision = .ok final ∧
      IsExpression nestedDivision nestedDivisionOfC ∧
      final.diagnostics = [(8, .divisionByZero)] ∧
      ¬Reports final.evaluated final.diagnostics (nestedDivisionOfC.occurrences 64 false) := by
  have run : nestedDivisionOfReduce.run 64 0 =
      some ⟨signedNum 64 3, [(8, 0)], [(8, .divisionByZero)]⟩ := by
    rfl
  refine ⟨_, parseExpr_of_derives nestedDivision_derives run, nestedDivision_isExpression, rfl, ?_⟩
  intro reports
  have unevaluated : (nestedDivisionOfC.occurrences 64 false).map
      (fun occurrence => (occurrence.token, occurrence.unevaluated)) = [(8, true)] := by
    rfl
  have flags := reports.1
  rw [unevaluated] at flags
  cases flags

end GccCil.Libcpp
