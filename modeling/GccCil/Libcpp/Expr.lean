import GccCil.Libcpp.Num

/-!
# The expressions of `#if`

`_cpp_parse_expr` is an operator precedence parser.  It keeps a stack of
operators, each with the value to its right, and evaluates an operator when
`reduce` takes it from the stack.
-/

namespace GccCil.Libcpp

/-- The priority in `optab`. -/
def Op.prio : Op → Nat
  | .eq => 0
  | .not => 16
  | .greater => 12
  | .less => 12
  | .plus => 14
  | .minus => 14
  | .mult => 15
  | .div => 15
  | .mod => 15
  | .and => 9
  | .or => 7
  | .xor => 8
  | .rshift => 13
  | .lshift => 13
  | .min => 10
  | .max => 10
  | .compl => 16
  | .andAnd => 6
  | .orOr => 5
  | .query => 3
  | .colon => 4
  | .comma => 2
  | .openParen => 1
  | .closeParen => 0
  | .eof => 0
  | .eqEq => 11
  | .notEq => 11
  | .greaterEq => 12
  | .lessEq => 12
  | .uplus => 16
  | .uminus => 16

/-- The flag `NO_L_OPERAND`. -/
def Op.noLeftOperand : Op → Bool
  | .not => true
  | .compl => true
  | .openParen => true
  | .uplus => true
  | .uminus => true
  | _ => false

/-- The flag `LEFT_ASSOC`. -/
def Op.leftAssoc : Op → Bool
  | .eq => false
  | .not => false
  | .compl => false
  | .query => false
  | .openParen => false
  | .closeParen => false
  | .eof => false
  | .uplus => false
  | .uminus => false
  | _ => true

/-- The priority with which `reduce` is called for an operator. -/
def Op.pushPrio (op : Op) : Nat := op.prio - (if op.leftAssoc then 1 else 0)

/-- A preprocessing token: one that converts to a value, an operator, or one
that is not valid here. -/
inductive Token (part : Nat) where
  | value (num : CppNum part)
  | operator (op : Op)
  | other
  deriving DecidableEq, Repr

inductive SyntaxError where
  | missingBinaryOperator
  | notValid
  | missingExpressionBetweenParens
  | noExpression
  | noRightOperand
  | noLeftOperand
  | colonWithoutQuery
  | missingCloseParen
  | missingOpenParen
  | queryWithoutColon
  | impossibleOperator
  | unbalancedStack
  /-- the evaluation of a division does not end -/
  | diverges
  deriving DecidableEq, Repr

inductive Diagnostic where
  | divisionByZero
  | integerOverflow
  deriving DecidableEq, Repr

/-- A `struct op`; the token is its number in the line. -/
structure Entry (part : Nat) where
  op : Op
  token : Nat
  value : CppNum part

/-- The stack, top first, with `skip_eval` and what has been diagnosed and
where.  `evaluated` has the operators that `reduce` has evaluated, each with
the value of `skip_eval` at that time. -/
structure Parser (part : Nat) where
  stack : List (Entry part)
  skipEval : Int
  evaluated : List (Nat × Int)
  diagnostics : List (Nat × Diagnostic)

section Reduce

variable {part : Nat} (precision : Nat)

/-- The arithmetic operators; `none` where the evaluation does not end. -/
def evalBinary (op : Op) (lhs rhs : CppNum part) : Option (CppNum part) :=
  match op with
  | .greater => some (numInequalityOp lhs rhs op precision)
  | .less => some (numInequalityOp lhs rhs op precision)
  | .greaterEq => some (numInequalityOp lhs rhs op precision)
  | .lessEq => some (numInequalityOp lhs rhs op precision)
  | .eqEq => some (numEqualityOp lhs rhs op)
  | .notEq => some (numEqualityOp lhs rhs op)
  | .and => some (numBitwiseOp lhs rhs op)
  | .or => some (numBitwiseOp lhs rhs op)
  | .xor => some (numBitwiseOp lhs rhs op)
  | .mult => some (numMul lhs rhs precision)
  | .div => numDivOp lhs rhs op precision
  | .mod => numDivOp lhs rhs op precision
  | _ => some (numBinaryOp lhs rhs op precision)

def faults (op : Op) (rhs result : CppNum part) : List Diagnostic :=
  (if (op = .div ∨ op = .mod) ∧ numZerop rhs then [.divisionByZero] else []) ++
    if result.overflow then [.integerOverflow] else []

/-- Record the evaluation of an operator; it is diagnosed unless skipped. -/
def Parser.evaluate (parser : Parser part) (token : Nat) (found : List Diagnostic)
    (stack : List (Entry part)) : Parser part where
  stack := stack
  skipEval := parser.skipEval
  evaluated := parser.evaluated ++ [(token, parser.skipEval)]
  diagnostics := parser.diagnostics ++
    if parser.skipEval = 0 then found.map fun fault => (token, fault) else []

def Entry.setValue (entry : Entry part) (value : CppNum part) : Entry part :=
  { entry with value := value }

/-- The value of `?:`. -/
def numConditional (condition first second : CppNum part) : CppNum part :=
  { (if !numZerop condition then first else second) with
    unsignedp := first.unsignedp || second.unsignedp }

inductive Reduction (part : Nat) where
  /-- the loop goes on -/
  | again (parser : Parser part)
  /-- the matching parenthesis: `reduce` returns -/
  | closed (parser : Parser part)

/-- The body of the loop of `reduce`, when `incoming` is about to be pushed. -/
def reduceOne (incoming : Op) (parser : Parser part) : Except SyntaxError (Reduction part) :=
  match parser.stack with
  | [] => .error .impossibleOperator
  | [_] => .error .impossibleOperator
  | top :: below :: rest =>
    match top.op with
    | .uplus | .uminus | .not | .compl =>
      let value := numUnaryOp top.value top.op precision
      .ok (.again (parser.evaluate top.token (faults top.op top.value value)
        (below.setValue value :: rest)))
    | .orOr =>
      let skipEval := if !numZerop below.value then parser.skipEval - 1 else parser.skipEval
      let value := numOfBool part (!numZerop below.value || !numZerop top.value)
      .ok (.again ({ parser with skipEval := skipEval }.evaluate top.token []
        (below.setValue value :: rest)))
    | .andAnd =>
      let skipEval := if numZerop below.value then parser.skipEval - 1 else parser.skipEval
      let value := numOfBool part (!numZerop below.value && !numZerop top.value)
      .ok (.again ({ parser with skipEval := skipEval }.evaluate top.token []
        (below.setValue value :: rest)))
    | .openParen =>
      if incoming ≠ .closeParen then .error .missingCloseParen
      else .ok (.closed { parser with stack := below.setValue top.value :: rest })
    | .colon =>
      match rest with
      | [] => .error .impossibleOperator
      | condition :: rest =>
        .ok (.again { parser with
          stack := condition.setValue
            (numConditional condition.value below.value top.value) :: rest
          skipEval := if !numZerop condition.value then parser.skipEval - 1
            else parser.skipEval })
    | .query => .error .queryWithoutColon
    | .eq | .closeParen | .eof => .error .impossibleOperator
    | op =>
      match evalBinary precision op below.value top.value with
      | none => .error .diverges
      | some value =>
        .ok (.again (parser.evaluate top.token (faults op top.value value)
          (below.setValue value :: rest)))

theorem reduceOne_length {incoming : Op} {parser parser' : Parser part}
    (reduced : reduceOne precision incoming parser = .ok (.again parser')) :
    parser'.stack.length < parser.stack.length := by
  unfold reduceOne at reduced
  repeat' split at reduced
  all_goals
    simp only [Except.ok.injEq, Reduction.again.injEq, reduceCtorEq] at reduced
  all_goals
    subst reduced
    simp_all [Parser.evaluate]

def Parser.topPrio (parser : Parser part) : Nat :=
  match parser.stack with
  | [] => 0
  | top :: _ => top.op.prio

/-- `reduce`, for an operator other than a left parenthesis. -/
def reduceLoop (incoming : Op) (parser : Parser part) : Except SyntaxError (Parser part) :=
  if incoming.pushPrio < parser.topPrio then
    match _reduced : reduceOne precision incoming parser with
    | .error failure => .error failure
    | .ok (.closed parser) => .ok parser
    | .ok (.again parser) => reduceLoop incoming parser
  else if incoming = .closeParen then .error .missingOpenParen
  else .ok parser
  termination_by parser.stack.length
  decreasing_by exact reduceOne_length precision _reduced

def reduce (incoming : Op) (parser : Parser part) : Except SyntaxError (Parser part) :=
  if incoming = .openParen then .ok parser else reduceLoop precision incoming parser

end Reduce

section Parse

variable {part : Nat} (precision : Nat)

def Parser.topOp (parser : Parser part) : Op :=
  match parser.stack with
  | [] => .eof
  | top :: _ => top.op

def checkOperand (op : Op) (wantValue : Bool) (top : Op) : Except SyntaxError Unit :=
  if op.noLeftOperand then
    if !wantValue then .error .missingBinaryOperator else .ok ()
  else if wantValue then
    if op = .closeParen ∧ top = .openParen then .error .missingExpressionBetweenParens
    else if op = .eof ∧ top = .eof then .error .noExpression
    else if top ≠ .eof ∧ top ≠ .openParen then .error .noRightOperand
    else if op = .closeParen ∨ op = .eof then .ok ()
    else .error .noLeftOperand
  else .ok ()

/-- How an operator that is pushed changes `skip_eval`. -/
def adjustSkip (op : Op) (parser : Parser part) : Except SyntaxError Int :=
  match op, parser.stack with
  | .orOr, top :: _ =>
    .ok (if !numZerop top.value then parser.skipEval + 1 else parser.skipEval)
  | .andAnd, top :: _ =>
    .ok (if numZerop top.value then parser.skipEval + 1 else parser.skipEval)
  | .query, top :: _ =>
    .ok (if numZerop top.value then parser.skipEval + 1 else parser.skipEval)
  | .colon, top :: below :: _ =>
    if top.op ≠ .query then .error .colonWithoutQuery
    else .ok (if !numZerop below.value then parser.skipEval + 1 else parser.skipEval - 1)
  | .colon, _ => .error .colonWithoutQuery
  | _, _ => .ok parser.skipEval

/-- The stack element of a new operator, whose value is not yet set. -/
def Parser.push (parser : Parser part) (op : Op) (token : Nat) (skipEval : Int) : Parser part :=
  { parser with
    stack := ⟨op, token, numOfBool part false⟩ :: parser.stack
    skipEval := skipEval }

def Parser.setTop (parser : Parser part) (value : CppNum part) : Parser part :=
  { parser with
    stack := match parser.stack with
      | [] => []
      | top :: rest => top.setValue value :: rest }

def parseOperator (op : Op) (token : Nat) (wantValue : Bool) (parser : Parser part) :
    Except SyntaxError (Bool × Parser part) := do
  checkOperand op wantValue parser.topOp
  let parser ← reduce precision op parser
  if op = .closeParen then return (wantValue, parser)
  else
    let skipEval ← adjustSkip op parser
    return (true, parser.push op token skipEval)

/-- One turn of the loop of `_cpp_parse_expr`. -/
def parseToken (token : Nat) (wantValue : Bool) (parser : Parser part) :
    Token part → Except SyntaxError (Bool × Parser part)
  | .value num =>
    if !wantValue then .error .missingBinaryOperator
    else .ok (false, parser.setTop num)
  | .operator op =>
    if op = .eq ∨ op = .eof ∨ op = .uplus ∨ op = .uminus then .error .notValid
    else if op = .plus ∧ wantValue then parseOperator precision .uplus token wantValue parser
    else if op = .minus ∧ wantValue then parseOperator precision .uminus token wantValue parser
    else parseOperator precision op token wantValue parser
  | .other => .error .notValid

def parseTokens : List (Token part) → Nat → Bool → Parser part →
    Except SyntaxError (Bool × Parser part)
  | [], _, wantValue, parser => .ok (wantValue, parser)
  | token :: rest, number, wantValue, parser => do
      let (wantValue, parser) ← parseToken precision number wantValue parser token
      parseTokens rest (number + 1) wantValue parser

def parseEnd (wantValue : Bool) (parser : Parser part) : Except SyntaxError (Parser part) := do
  checkOperand .eof wantValue parser.topOp
  let parser ← reduce precision .eof parser
  match parser.stack with
  | [_] => return parser
  | _ => .error .unbalancedStack

def Parser.initial (part : Nat) : Parser part := ⟨[⟨.eof, 0, numOfBool part false⟩], 0, [], []⟩

/-- `_cpp_parse_expr`: the final state of the parser, in which the one element
of the stack has the value of the expression. -/
def parseExpr (tokens : List (Token part)) : Except SyntaxError (Parser part) := do
  let (wantValue, parser) ← parseTokens precision tokens 1 true (Parser.initial part)
  parseEnd precision wantValue parser

def Parser.result (parser : Parser part) : CppNum part :=
  match parser.stack with
  | [] => numOfBool part false
  | top :: _ => top.value

end Parse

end GccCil.Libcpp
