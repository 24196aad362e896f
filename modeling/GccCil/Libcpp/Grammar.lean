import GccCil.Libcpp.Expr

/-!
# The grammar of `#if` expressions

The grammar is that of C, by the priorities of the operators, with a comma
operator.  Its conditional has a parameter, the levels of its three operands:
`conditionalOfC` are those of the C standard, `conditionalOfReduce` those that
the priorities of `?` and `:` in `optab` amount to.
-/

namespace GccCil.Libcpp

/-- The parse tree of an expression.  An operator has the number of its token. -/
inductive Tree (part : Nat) where
  | value (num : CppNum part)
  | unary (token : Nat) (op : Op) (operand : Tree part)
  | binary (token : Nat) (op : Op) (left right : Tree part)
  | conditional (condition first second : Tree part)
  | paren (inner : Tree part)

def Op.isBinary (op : Op) : Bool := op.leftAssoc && op != .colon

def Op.unaryToken : Op → Option Op
  | .not => some .not
  | .compl => some .compl
  | .uplus => some .plus
  | .uminus => some .minus
  | _ => none

/-- The levels of the operands of `?:`.  Level 2 is an expression with commas,
level 4 a conditional expression, level 5 the operand of `||` and level 16 a
unary expression. -/
structure ConditionalLevels where
  condition : Nat
  first : Nat
  second : Nat

def conditionalOfC : ConditionalLevels := ⟨5, 2, 4⟩

def conditionalOfReduce : ConditionalLevels := ⟨4, 4, 5⟩

/-- The tokens, of which the first has the number `start`, are an expression of
a level with the given tree. -/
inductive Derives {part : Nat} (levels : ConditionalLevels) :
    Nat → Nat → List (Token part) → Tree part → Prop where
  | value (start : Nat) (num : CppNum part) : Derives levels 16 start [.value num] (.value num)
  | paren {start : Nat} {tokens : List (Token part)} {tree : Tree part}
      (inner : Derives levels 2 (start + 1) tokens tree) :
      Derives levels 16 start
        (.operator .openParen :: (tokens ++ [.operator .closeParen])) (.paren tree)
  | unary {start : Nat} {op token : Op} {tokens : List (Token part)} {tree : Tree part}
      (written : op.unaryToken = some token) (operand : Derives levels 16 (start + 1) tokens tree) :
      Derives levels 16 start (.operator token :: tokens) (.unary start op tree)
  | binary {start : Nat} {op : Op} {left right : List (Token part)}
      {leftTree rightTree : Tree part} (isBinary : op.isBinary = true)
      (leftDerives : Derives levels op.prio start left leftTree)
      (rightDerives : Derives levels (op.prio + 1) (start + left.length + 1) right rightTree) :
      Derives levels op.prio start (left ++ .operator op :: right)
        (.binary (start + left.length) op leftTree rightTree)
  | conditional {start : Nat} {condition first second : List (Token part)}
      {conditionTree firstTree secondTree : Tree part}
      (conditionDerives : Derives levels levels.condition start condition conditionTree)
      (firstDerives : Derives levels levels.first (start + condition.length + 1) first firstTree)
      (secondDerives : Derives levels levels.second
        (start + condition.length + 1 + first.length + 1) second secondTree) :
      Derives levels 4 start
        (condition ++ .operator .query :: (first ++ .operator .colon :: second))
        (.conditional conditionTree firstTree secondTree)
  | lift {level start : Nat} {tokens : List (Token part)} {tree : Tree part}
      (higher : Derives levels (level + 1) start tokens tree) :
      Derives levels level start tokens tree

theorem Derives.lower {part : Nat} {levels : ConditionalLevels} {level level' start : Nat}
    {tokens : List (Token part)} {tree : Tree part}
    (derives : Derives levels level' start tokens tree) (le : level ≤ level') :
    Derives levels level start tokens tree := by
  induction le with
  | refl => exact derives
  | step le ih => exact ih derives.lift

/-- The sequence is a constant expression of C, with the given parse tree. -/
def IsExpression {part : Nat} (tokens : List (Token part)) (tree : Tree part) : Prop :=
  Derives conditionalOfC 2 1 tokens tree

/-- What an evaluation yields and what it leaves behind: the operators it
evaluates, with the `skip_eval` of each, and the diagnostics. -/
structure Outcome (part : Nat) where
  value : CppNum part
  evaluated : List (Nat × Int)
  diagnostics : List (Nat × Diagnostic)

section Evaluation

variable {part : Nat} (precision : Nat)

def operatorOutcome (token : Nat) (skipEval : Int) (found : List Diagnostic)
    (value : CppNum part) (evaluated : List (Nat × Int)) (diagnostics : List (Nat × Diagnostic)) :
    Outcome part where
  value := value
  evaluated := evaluated ++ [(token, skipEval)]
  diagnostics := diagnostics ++ if skipEval = 0 then found.map fun fault => (token, fault) else []

/-- Evaluate a tree under a value of `skip_eval`, with the arithmetic of the
preprocessor; `none` where that does not end. -/
def Tree.run : Tree part → Int → Option (Outcome part)
  | .value num, _ => some ⟨num, [], []⟩
  | .paren inner, skipEval => inner.run skipEval
  | .unary token op operand, skipEval => do
      let inner ← operand.run skipEval
      let value := numUnaryOp inner.value op precision
      return operatorOutcome token skipEval (faults op inner.value value) value inner.evaluated
        inner.diagnostics
  | .binary token op left right, skipEval => do
      let first ← left.run skipEval
      if op = .andAnd then
        let second ← right.run (if numZerop first.value then skipEval + 1 else skipEval)
        return operatorOutcome token skipEval []
          (numOfBool part (!numZerop first.value && !numZerop second.value))
          (first.evaluated ++ second.evaluated) (first.diagnostics ++ second.diagnostics)
      else if op = .orOr then
        let second ← right.run (if !numZerop first.value then skipEval + 1 else skipEval)
        return operatorOutcome token skipEval []
          (numOfBool part (!numZerop first.value || !numZerop second.value))
          (first.evaluated ++ second.evaluated) (first.diagnostics ++ second.diagnostics)
      else
        let second ← right.run skipEval
        let value ← evalBinary precision op first.value second.value
        return operatorOutcome token skipEval (faults op second.value value) value
          (first.evaluated ++ second.evaluated) (first.diagnostics ++ second.diagnostics)
  | .conditional condition first second, skipEval => do
      let tested ← condition.run skipEval
      let one ← first.run (if numZerop tested.value then skipEval + 1 else skipEval)
      let two ← second.run (if !numZerop tested.value then skipEval + 1 else skipEval)
      return ⟨numConditional tested.value one.value two.value,
        tested.evaluated ++ one.evaluated ++ two.evaluated,
        tested.diagnostics ++ one.diagnostics ++ two.diagnostics⟩

end Evaluation

end GccCil.Libcpp
