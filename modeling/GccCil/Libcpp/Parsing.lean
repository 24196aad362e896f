import GccCil.Libcpp.Grammar

/-!
# The parser follows the grammar

An expression of level `k`, read while an operator of lower priority is on top
of the stack, leaves a stack that every `reduce` for a priority below `k` turns
into the old stack with the value of the expression on top.  So the parser
accepts what the grammar with the levels of `conditionalOfReduce` derives; and
it accepts nothing else.
-/

namespace GccCil.Libcpp

section Parse

variable {part : Nat} {precision : Nat}

def Parser.settle (parser : Parser part) (outcome : Outcome part) : Parser part where
  stack := (parser.setTop outcome.value).stack
  skipEval := parser.skipEval
  evaluated := parser.evaluated ++ outcome.evaluated
  diagnostics := parser.diagnostics ++ outcome.diagnostics

theorem topPrio_settle (parser : Parser part) (outcome : Outcome part) :
    (parser.settle outcome).topPrio = parser.topPrio := by
  unfold Parser.settle Parser.setTop Parser.topPrio
  cases parser.stack <;> rfl

theorem parseTokens_append (first second : List (Token part)) (number : Nat) (wantValue : Bool)
    (parser : Parser part) :
    parseTokens precision (first ++ second) number wantValue parser =
      (parseTokens precision first number wantValue parser).bind fun state =>
        parseTokens precision second (number + first.length) state.1 state.2 := by
  induction first generalizing number wantValue parser with
  | nil => rfl
  | cons token rest ih =>
    simp only [List.cons_append, parseTokens, List.length_cons]
    cases parseToken precision number wantValue parser token with
    | error failure => rfl
    | ok state =>
      have shifted : number + (rest.length + 1) = number + 1 + rest.length := by omega
      rw [shifted]
      exact ih (number + 1) state.1 state.2

theorem reduceLoop_stop {incoming : Op} {parser : Parser part}
    (low : parser.topPrio ≤ incoming.pushPrio) (notClose : incoming ≠ .closeParen) :
    reduceLoop precision incoming parser = .ok parser := by
  rw [reduceLoop, if_neg (Nat.not_lt.mpr low), if_neg notClose]

theorem reduceLoop_again {incoming : Op} {parser parser' : Parser part}
    (high : incoming.pushPrio < parser.topPrio)
    (reduced : reduceOne precision incoming parser = .ok (.again parser')) :
    reduceLoop precision incoming parser = reduceLoop precision incoming parser' := by
  rw [reduceLoop, if_pos high]
  split
  · simp_all
  · simp_all
  · rename_i again
    rw [reduced] at again
    simp only [Except.ok.injEq, Reduction.again.injEq] at again
    rw [again]

theorem reduceLoop_closed {incoming : Op} {parser parser' : Parser part}
    (high : incoming.pushPrio < parser.topPrio)
    (closes : reduceOne precision incoming parser = .ok (.closed parser')) :
    reduceLoop precision incoming parser = .ok parser' := by
  rw [reduceLoop, if_pos high]
  split <;> simp_all

theorem reduceLoop_error {incoming : Op} {parser : Parser part} {failure : SyntaxError}
    (high : incoming.pushPrio < parser.topPrio)
    (fails : reduceOne precision incoming parser = .error failure) :
    reduceLoop precision incoming parser = .error failure := by
  rw [reduceLoop, if_pos high]
  split <;> simp_all

/-- The stack that an expression leaves: every `reduce` for a lower priority
makes it the settled one. -/
def SettlesTo (precision level : Nat) (after settled : Parser part) : Prop :=
  ∀ incoming : Op, incoming.pushPrio < level →
    reduceLoop precision incoming after = reduceLoop precision incoming settled

theorem parseOperator_settled {op : Op} {level : Nat} {after parser : Parser part}
    {outcome : Outcome part} {skipEval : Int} (token : Nat)
    (settles : SettlesTo precision level after (parser.settle outcome))
    (below : op.pushPrio < level) (fits : parser.topPrio ≤ op.pushPrio)
    (needsLeft : op.noLeftOperand = false) (notClose : op ≠ .closeParen)
    (adjusted : adjustSkip op (parser.settle outcome) = .ok skipEval) :
    parseOperator precision op token false after =
      .ok (true, (parser.settle outcome).push op token skipEval) := by
  have notOpen : op ≠ .openParen := by
    rintro rfl
    cases needsLeft
  have reduced : reduce precision op after = .ok (parser.settle outcome) := by
    rw [reduce, if_neg notOpen, settles op below]
    exact reduceLoop_stop (by rw [topPrio_settle]; exact fits) notClose
  have checked : checkOperand op false after.topOp = .ok () := by
    simp [checkOperand, needsLeft]
  simp only [parseOperator, checked, reduced, notClose, if_false, bind, Except.bind, adjusted]
  rfl

theorem parseToken_operator {op : Op} (token : Nat) (parser : Parser part)
    (between : op.isBinary = true ∨ op = .query ∨ op = .colon) :
    parseToken precision token false parser (.operator op) =
      parseOperator precision op token false parser := by
  cases op <;> simp_all [parseToken, Op.isBinary, Op.leftAssoc]

section Nodes

variable {parser : Parser part} {first second third : Outcome part} {token : Nat} {incoming : Op}

theorem reduceOne_unary {op written : Op} (unary : op.unaryToken = some written)
    (nonempty : parser.stack ≠ []) :
    reduceOne precision incoming ((parser.push op token parser.skipEval).settle first) =
      .ok (.again (parser.settle (operatorOutcome token parser.skipEval
        (faults op first.value (numUnaryOp first.value op precision))
        (numUnaryOp first.value op precision) first.evaluated first.diagnostics))) := by
  obtain ⟨stack, skipEval, evaluated, diagnostics⟩ := parser
  cases stack with
  | nil => exact absurd rfl nonempty
  | cons top rest =>
    cases op <;> cases unary <;> simp [reduceOne, Parser.settle, Parser.push, Parser.setTop,
      Entry.setValue, Parser.evaluate, operatorOutcome, List.append_assoc] <;> rfl

theorem reduceOne_arithmetic {op : Op} {value : CppNum part} (isBinary : op.isBinary = true)
    (notAnd : op ≠ .andAnd) (notOr : op ≠ .orOr)
    (evaluates : evalBinary precision op first.value second.value = some value)
    (nonempty : parser.stack ≠ []) :
    reduceOne precision incoming
        (((parser.settle first).push op token parser.skipEval).settle second) =
      .ok (.again (parser.settle (operatorOutcome token parser.skipEval
        (faults op second.value value) value (first.evaluated ++ second.evaluated)
        (first.diagnostics ++ second.diagnostics)))) := by
  obtain ⟨stack, skipEval, evaluated, diagnostics⟩ := parser
  cases stack with
  | nil => exact absurd rfl nonempty
  | cons top rest =>
    cases op <;> simp_all [Op.isBinary, Op.leftAssoc, reduceOne, Parser.settle, Parser.push,
      Parser.setTop, Entry.setValue, Parser.evaluate, operatorOutcome, List.append_assoc]

theorem reduceOne_andAnd (nonempty : parser.stack ≠ []) :
    reduceOne precision incoming (((parser.settle first).push .andAnd token
        (if numZerop first.value then parser.skipEval + 1 else parser.skipEval)).settle second) =
      .ok (.again (parser.settle (operatorOutcome token parser.skipEval []
        (numOfBool part (!numZerop first.value && !numZerop second.value))
        (first.evaluated ++ second.evaluated) (first.diagnostics ++ second.diagnostics)))) := by
  obtain ⟨stack, skipEval, evaluated, diagnostics⟩ := parser
  cases stack with
  | nil => exact absurd rfl nonempty
  | cons top rest =>
    cases zero : numZerop first.value <;>
      simp [zero, reduceOne, Parser.settle, Parser.push, Parser.setTop, Entry.setValue,
        Parser.evaluate, operatorOutcome, List.append_assoc]

theorem reduceOne_orOr (nonempty : parser.stack ≠ []) :
    reduceOne precision incoming (((parser.settle first).push .orOr token
        (if !numZerop first.value then parser.skipEval + 1 else parser.skipEval)).settle second) =
      .ok (.again (parser.settle (operatorOutcome token parser.skipEval []
        (numOfBool part (!numZerop first.value || !numZerop second.value))
        (first.evaluated ++ second.evaluated) (first.diagnostics ++ second.diagnostics)))) := by
  obtain ⟨stack, skipEval, evaluated, diagnostics⟩ := parser
  cases stack with
  | nil => exact absurd rfl nonempty
  | cons top rest =>
    cases zero : numZerop first.value <;>
      simp [zero, reduceOne, Parser.settle, Parser.push, Parser.setTop, Entry.setValue,
        Parser.evaluate, operatorOutcome, List.append_assoc]

theorem adjustSkip_andAnd (nonempty : parser.stack ≠ []) :
    adjustSkip .andAnd (parser.settle first) =
      .ok (if numZerop first.value then parser.skipEval + 1 else parser.skipEval) := by
  obtain ⟨stack, skipEval, evaluated, diagnostics⟩ := parser
  cases stack with
  | nil => exact absurd rfl nonempty
  | cons top rest => rfl

theorem adjustSkip_orOr (nonempty : parser.stack ≠ []) :
    adjustSkip .orOr (parser.settle first) =
      .ok (if !numZerop first.value then parser.skipEval + 1 else parser.skipEval) := by
  obtain ⟨stack, skipEval, evaluated, diagnostics⟩ := parser
  cases stack with
  | nil => exact absurd rfl nonempty
  | cons top rest => rfl

theorem adjustSkip_query (nonempty : parser.stack ≠ []) :
    adjustSkip .query (parser.settle first) =
      .ok (if numZerop first.value then parser.skipEval + 1 else parser.skipEval) := by
  obtain ⟨stack, skipEval, evaluated, diagnostics⟩ := parser
  cases stack with
  | nil => exact absurd rfl nonempty
  | cons top rest => rfl

theorem adjustSkip_arithmetic {op : Op} (isBinary : op.isBinary = true) (notAnd : op ≠ .andAnd)
    (notOr : op ≠ .orOr) (parser : Parser part) :
    adjustSkip op parser = .ok parser.skipEval := by
  cases op <;> simp_all [adjustSkip, Op.isBinary, Op.leftAssoc]

/-- The stack between `?` and `:`, with the first arm settled. -/
def Parser.asked (parser : Parser part) (condition first : Outcome part) (token : Nat) :
    Parser part :=
  ((parser.settle condition).push .query token
    (if numZerop condition.value then parser.skipEval + 1 else parser.skipEval)).settle first

theorem adjustSkip_colon (nonempty : parser.stack ≠ []) :
    adjustSkip .colon (parser.asked first second token) =
      .ok (if !numZerop first.value then parser.skipEval + 1 else parser.skipEval) := by
  obtain ⟨stack, skipEval, evaluated, diagnostics⟩ := parser
  cases stack with
  | nil => exact absurd rfl nonempty
  | cons top rest =>
    cases zero : numZerop first.value <;>
      simp [zero, adjustSkip, Parser.asked, Parser.settle, Parser.push, Parser.setTop,
        Entry.setValue]

theorem reduceOne_colon {token' : Nat} (nonempty : parser.stack ≠ []) :
    reduceOne precision incoming (((parser.asked first second token).push .colon token'
        (if !numZerop first.value then parser.skipEval + 1 else parser.skipEval)).settle third) =
      .ok (.again (parser.settle
        ⟨numConditional first.value second.value third.value,
          first.evaluated ++ second.evaluated ++ third.evaluated,
          first.diagnostics ++ second.diagnostics ++ third.diagnostics⟩)) := by
  obtain ⟨stack, skipEval, evaluated, diagnostics⟩ := parser
  cases stack with
  | nil => exact absurd rfl nonempty
  | cons top rest =>
    cases zero : numZerop first.value <;>
      simp [zero, reduceOne, Parser.asked, Parser.settle, Parser.push, Parser.setTop,
        Entry.setValue, List.append_assoc]

end Nodes

/-- Reading the tokens has the outcome of the tree, whenever the operator on
top of the stack has a lower priority. -/
def Reads (precision level start : Nat) (tokens : List (Token part)) (tree : Tree part) : Prop :=
  ∀ (parser : Parser part) (outcome : Outcome part), parser.stack ≠ [] →
    (16 ≤ level ∨ parser.topPrio < level) → tree.run precision parser.skipEval = some outcome →
    ∃ after, parseTokens precision tokens start true parser = .ok (false, after) ∧
      SettlesTo precision level after (parser.settle outcome)

theorem prio_le (op : Op) : op.prio ≤ 16 := by
  cases op <;> decide

theorem topPrio_le (parser : Parser part) : parser.topPrio ≤ 16 := by
  unfold Parser.topPrio
  cases parser.stack with
  | nil => exact Nat.zero_le 16
  | cons top rest => exact prio_le top.op

theorem push_ne_nil (parser : Parser part) (op : Op) (token : Nat) (skipEval : Int) :
    (parser.push op token skipEval).stack ≠ [] :=
  List.cons_ne_nil _ _

theorem topPrio_push (parser : Parser part) (op : Op) (token : Nat) (skipEval : Int) :
    (parser.push op token skipEval).topPrio = op.prio :=
  rfl

theorem push_skipEval (parser : Parser part) (op : Op) (token : Nat) (skipEval : Int) :
    (parser.push op token skipEval).skipEval = skipEval :=
  rfl

theorem parseTokens_operand {first second : List (Token part)} {number : Nat}
    {parser after : Parser part}
    (operand : parseTokens precision first number true parser = .ok (false, after)) :
    parseTokens precision (first ++ second) number true parser =
      parseTokens precision second (number + first.length) false after := by
  rw [parseTokens_append, operand]
  rfl

theorem parseTokens_operator {token : Token part} {rest : List (Token part)} {number : Nat}
    {wantValue wantValue' : Bool} {parser after : Parser part}
    (pushed : parseToken precision number wantValue parser token = .ok (wantValue', after)) :
    parseTokens precision (token :: rest) number wantValue parser =
      parseTokens precision rest (number + 1) wantValue' after := by
  rw [parseTokens, pushed]
  rfl

theorem settle_value (parser : Parser part) (num : CppNum part) :
    parser.settle ⟨num, [], []⟩ = parser.setTop num := by
  simp [Parser.settle, Parser.setTop]

theorem reads_value (start : Nat) (num : CppNum part) :
    Reads precision 16 start [.value num] (.value num) := by
  intro parser outcome nonempty low run
  simp only [Tree.run, Option.some.injEq] at run
  subst run
  refine ⟨parser.setTop num, rfl, ?_⟩
  intro incoming below
  rw [settle_value]

theorem parseToken_openParen (token : Nat) (parser : Parser part) :
    parseToken precision token true parser (.operator .openParen) =
      .ok (true, parser.push .openParen token parser.skipEval) := by
  simp [parseToken, parseOperator, checkOperand, Op.noLeftOperand, reduce, adjustSkip, bind,
    Except.bind, pure, Except.pure]

theorem reduceLoop_closeParen {token : Nat} {parser : Parser part} {inner : Outcome part}
    (nonempty : parser.stack ≠ []) :
    reduceLoop precision .closeParen ((parser.push .openParen token parser.skipEval).settle inner) =
      .ok (parser.settle inner) := by
  have low : Op.closeParen.pushPrio <
      ((parser.push .openParen token parser.skipEval).settle inner).topPrio := by
    rw [topPrio_settle, topPrio_push]
    decide
  have closes : reduceOne precision .closeParen
      ((parser.push .openParen token parser.skipEval).settle inner) =
        .ok (.closed (parser.settle inner)) := by
    obtain ⟨stack, skipEval, evaluated, diagnostics⟩ := parser
    cases stack with
    | nil => exact absurd rfl nonempty
    | cons top rest =>
      simp [reduceOne, Parser.settle, Parser.push, Parser.setTop, Entry.setValue]
  exact reduceLoop_closed low closes

theorem parseToken_closeParen {token : Nat} {after settled : Parser part}
    (reduced : reduceLoop precision .closeParen after = .ok settled) :
    parseToken precision token false after (.operator .closeParen) = .ok (false, settled) := by
  simp [parseToken, parseOperator, checkOperand, Op.noLeftOperand, reduce, reduced, bind,
    Except.bind, pure, Except.pure]

theorem reads_paren {start : Nat} {tokens : List (Token part)} {tree : Tree part}
    (inner : Reads precision 2 (start + 1) tokens tree) :
    Reads precision 16 start (.operator .openParen :: (tokens ++ [.operator .closeParen]))
      (.paren tree) := by
  intro parser outcome nonempty low run
  obtain ⟨after, read, settles⟩ := inner (parser.push .openParen start parser.skipEval) outcome
    (push_ne_nil _ _ _ _) (Or.inr (by rw [topPrio_push]; decide)) run
  have closed : reduceLoop precision .closeParen after = .ok (parser.settle outcome) := by
    rw [settles .closeParen (by decide)]
    exact reduceLoop_closeParen nonempty
  refine ⟨parser.settle outcome, ?_, fun incoming below => rfl⟩
  rw [parseTokens_operator (parseToken_openParen start parser), parseTokens_operand read,
    parseTokens_operator (parseToken_closeParen closed)]
  rfl

theorem parseToken_unary {op written : Op} (unary : op.unaryToken = some written) (token : Nat)
    (parser : Parser part) :
    parseToken precision token true parser (.operator written) =
      .ok (true, parser.push op token parser.skipEval) := by
  have stops : reduceLoop precision op parser = .ok parser := by
    apply reduceLoop_stop
    · cases op <;> cases unary <;> exact topPrio_le parser
    · rintro rfl
      cases unary
  cases op <;> cases unary <;>
    simp [parseToken, parseOperator, checkOperand, Op.noLeftOperand, reduce, stops, adjustSkip,
      bind, Except.bind, pure, Except.pure]

theorem reads_unary {start : Nat} {op written : Op} {tokens : List (Token part)} {tree : Tree part}
    (unary : op.unaryToken = some written) (operand : Reads precision 16 (start + 1) tokens tree) :
    Reads precision 16 start (.operator written :: tokens) (.unary start op tree) := by
  intro parser outcome nonempty low run
  simp only [Tree.run, bind, Option.bind_eq_some_iff, pure, Option.some.injEq] at run
  obtain ⟨inner, innerRun, rfl⟩ := run
  obtain ⟨after, read, settles⟩ := operand (parser.push op start parser.skipEval) inner
    (push_ne_nil _ _ _ _) (Or.inl (Nat.le_refl 16)) innerRun
  refine ⟨after, ?_, ?_⟩
  · rw [parseTokens_operator (parseToken_unary unary start parser)]
    exact read
  · intro incoming below
    rw [settles incoming below]
    apply reduceLoop_again
    · rw [topPrio_settle, topPrio_push]
      cases op <;> cases unary <;> exact below
    · exact reduceOne_unary unary nonempty

theorem pushPrio_of_isBinary {op : Op} (isBinary : op.isBinary = true) :
    op.pushPrio + 1 = op.prio ∧ op.prio < 16 ∧ op.noLeftOperand = false ∧ op ≠ .closeParen := by
  revert isBinary
  cases op <;> decide

theorem parseTokens_infixed {op : Op} {level start : Nat} {left right : List (Token part)}
    {parser after : Parser part} {first : Outcome part} {skipEval : Int}
    (between : op.isBinary = true ∨ op = .query ∨ op = .colon)
    (leftRead : parseTokens precision left start true parser = .ok (false, after))
    (leftSettles : SettlesTo precision level after (parser.settle first))
    (below : op.pushPrio < level) (fits : parser.topPrio ≤ op.pushPrio)
    (adjusted : adjustSkip op (parser.settle first) = .ok skipEval) :
    parseTokens precision (left ++ .operator op :: right) start true parser =
      parseTokens precision right (start + left.length + 1) true
        ((parser.settle first).push op (start + left.length) skipEval) := by
  have shape : op.noLeftOperand = false ∧ op ≠ .closeParen := by
    obtain isBinary | rfl | rfl := between
    · exact (pushPrio_of_isBinary isBinary).2.2
    · decide
    · decide
  have pushed : parseToken precision (start + left.length) false after (.operator op) =
      .ok (true, (parser.settle first).push op (start + left.length) skipEval) := by
    rw [parseToken_operator _ _ between]
    exact parseOperator_settled _ leftSettles below fits shape.1 shape.2 adjusted
  rw [parseTokens_operand leftRead, parseTokens_operator pushed]

/-- The step that the binary operators share: the left operand, the operator,
the right operand, and the reduction of the three. -/
theorem reads_infixed {op : Op} {start : Nat} {left right : List (Token part)}
    {rightTree : Tree part} {parser after : Parser part} {first second outcome : Outcome part}
    {skipEval : Int} (isBinary : op.isBinary = true) (low : parser.topPrio < op.prio)
    (leftRead : parseTokens precision left start true parser = .ok (false, after))
    (leftSettles : SettlesTo precision op.prio after (parser.settle first))
    (adjusted : adjustSkip op (parser.settle first) = .ok skipEval)
    (rightReads : Reads precision (op.prio + 1) (start + left.length + 1) right rightTree)
    (rightRun : rightTree.run precision skipEval = some second)
    (reduces : ∀ incoming, reduceOne precision incoming
      (((parser.settle first).push op (start + left.length) skipEval).settle second) =
        .ok (.again (parser.settle outcome))) :
    ∃ after, parseTokens precision (left ++ .operator op :: right) start true parser =
        .ok (false, after) ∧
      SettlesTo precision op.prio after (parser.settle outcome) := by
  have pushes := (pushPrio_of_isBinary isBinary).1
  obtain ⟨final, rightRead, rightSettles⟩ := rightReads
    ((parser.settle first).push op (start + left.length) skipEval) second (push_ne_nil _ _ _ _)
    (Or.inr (by rw [topPrio_push]; exact Nat.lt_succ_self _)) rightRun
  refine ⟨final, ?_, ?_⟩
  · rw [parseTokens_infixed (Or.inl isBinary) leftRead leftSettles (by omega) (by omega) adjusted]
    exact rightRead
  · intro incoming below
    rw [rightSettles incoming (Nat.lt_succ_of_lt below)]
    apply reduceLoop_again
    · rw [topPrio_settle, topPrio_push]
      exact below
    · exact reduces incoming

theorem reads_binary {start : Nat} {op : Op} {left right : List (Token part)}
    {leftTree rightTree : Tree part} (isBinary : op.isBinary = true)
    (leftReads : Reads precision op.prio start left leftTree)
    (rightReads : Reads precision (op.prio + 1) (start + left.length + 1) right rightTree) :
    Reads precision op.prio start (left ++ .operator op :: right)
      (.binary (start + left.length) op leftTree rightTree) := by
  intro parser outcome nonempty low run
  have small := (pushPrio_of_isBinary isBinary).2.1
  have lower : parser.topPrio < op.prio := by omega
  simp only [Tree.run, bind, Option.bind_eq_some_iff] at run
  obtain ⟨first, firstRun, run⟩ := run
  obtain ⟨after, leftRead, leftSettles⟩ := leftReads parser first nonempty (Or.inr lower) firstRun
  by_cases isAnd : op = .andAnd
  · subst isAnd
    simp only [if_true, Option.bind_eq_some_iff, pure, Option.some.injEq] at run
    obtain ⟨second, secondRun, rfl⟩ := run
    exact reads_infixed isBinary lower leftRead leftSettles (adjustSkip_andAnd nonempty) rightReads
      secondRun fun incoming => reduceOne_andAnd nonempty
  · by_cases isOr : op = .orOr
    · subst isOr
      simp only [reduceCtorEq, if_false, if_true, Option.bind_eq_some_iff, pure,
        Option.some.injEq] at run
      obtain ⟨second, secondRun, rfl⟩ := run
      exact reads_infixed isBinary lower leftRead leftSettles (adjustSkip_orOr nonempty) rightReads
        secondRun fun incoming => reduceOne_orOr nonempty
    · simp only [isAnd, isOr, if_false, Option.bind_eq_some_iff, pure, Option.some.injEq] at run
      obtain ⟨second, secondRun, value, evaluates, rfl⟩ := run
      exact reads_infixed isBinary lower leftRead leftSettles
        (adjustSkip_arithmetic isBinary isAnd isOr _) rightReads secondRun
        fun incoming => reduceOne_arithmetic isBinary isAnd isOr evaluates nonempty

theorem parseTokens_query {start : Nat} {condition rest : List (Token part)}
    {parser after : Parser part} {tested : Outcome part} (lower : parser.topPrio < 4)
    (read : parseTokens precision condition start true parser = .ok (false, after))
    (settles : SettlesTo precision 4 after (parser.settle tested)) (nonempty : parser.stack ≠ []) :
    parseTokens precision (condition ++ .operator .query :: rest) start true parser =
      parseTokens precision rest (start + condition.length + 1) true
        ((parser.settle tested).push .query (start + condition.length)
          (if numZerop tested.value then parser.skipEval + 1 else parser.skipEval)) :=
  parseTokens_infixed (Or.inr (Or.inl rfl)) read settles (by decide) (Nat.le_of_lt_succ lower)
    (adjustSkip_query nonempty)

theorem parseTokens_colon {start token : Nat} {first rest : List (Token part)}
    {parser after : Parser part} {tested one : Outcome part}
    (read : parseTokens precision first start true ((parser.settle tested).push .query token
      (if numZerop tested.value then parser.skipEval + 1 else parser.skipEval)) = .ok (false, after))
    (settles : SettlesTo precision 4 after (parser.asked tested one token))
    (nonempty : parser.stack ≠ []) :
    parseTokens precision (first ++ .operator .colon :: rest) start true
        ((parser.settle tested).push .query token
          (if numZerop tested.value then parser.skipEval + 1 else parser.skipEval)) =
      parseTokens precision rest (start + first.length + 1) true
        ((parser.asked tested one token).push .colon (start + first.length)
          (if !numZerop tested.value then parser.skipEval + 1 else parser.skipEval)) := by
  apply parseTokens_infixed (Or.inr (Or.inr rfl)) read settles
  · decide
  · rw [topPrio_push]
    decide
  · exact adjustSkip_colon nonempty

theorem reads_conditional {start : Nat} {condition first second : List (Token part)}
    {conditionTree firstTree secondTree : Tree part}
    (conditionReads : Reads precision 4 start condition conditionTree)
    (firstReads : Reads precision 4 (start + condition.length + 1) first firstTree)
    (secondReads : Reads precision 5 (start + condition.length + 1 + first.length + 1) second
      secondTree) :
    Reads precision 4 start (condition ++ .operator .query :: (first ++ .operator .colon :: second))
      (.conditional conditionTree firstTree secondTree) := by
  intro parser outcome nonempty low run
  have lower : parser.topPrio < 4 := by omega
  simp only [Tree.run, bind, Option.bind_eq_some_iff, pure, Option.some.injEq] at run
  obtain ⟨tested, testedRun, one, oneRun, two, twoRun, rfl⟩ := run
  obtain ⟨afterCondition, conditionRead, conditionSettles⟩ :=
    conditionReads parser tested nonempty (Or.inr lower) testedRun
  obtain ⟨afterFirst, firstRead, firstSettles⟩ := firstReads
    ((parser.settle tested).push .query (start + condition.length)
      (if numZerop tested.value then parser.skipEval + 1 else parser.skipEval)) one
    (push_ne_nil _ _ _ _) (Or.inr (by rw [topPrio_push]; decide)) oneRun
  obtain ⟨afterSecond, secondRead, secondSettles⟩ := secondReads
    ((parser.asked tested one (start + condition.length)).push .colon
      (start + condition.length + 1 + first.length)
      (if !numZerop tested.value then parser.skipEval + 1 else parser.skipEval)) two
    (push_ne_nil _ _ _ _) (Or.inr (by rw [topPrio_push]; decide)) twoRun
  refine ⟨afterSecond, ?_, ?_⟩
  · rw [parseTokens_query lower conditionRead conditionSettles nonempty,
      parseTokens_colon firstRead firstSettles nonempty]
    exact secondRead
  · intro incoming below
    rw [secondSettles incoming (Nat.lt_succ_of_lt below)]
    apply reduceLoop_again
    · rw [topPrio_settle, topPrio_push]
      exact below
    · exact reduceOne_colon nonempty

theorem Reads.lift {level start : Nat} {tokens : List (Token part)} {tree : Tree part}
    (higher : Reads precision (level + 1) start tokens tree) :
    Reads precision level start tokens tree := by
  intro parser outcome nonempty low run
  obtain ⟨after, read, settles⟩ := higher parser outcome nonempty (by omega) run
  exact ⟨after, read, fun incoming below => settles incoming (Nat.lt_succ_of_lt below)⟩

/-- The parser reads every expression of the grammar that its priorities
amount to, and its state then has the outcome of the tree. -/
theorem reads_of_derives {level start : Nat} {tokens : List (Token part)} {tree : Tree part}
    (derives : Derives conditionalOfReduce level start tokens tree) :
    Reads precision level start tokens tree := by
  induction derives with
  | value start num => exact reads_value start num
  | paren inner innerReads => exact reads_paren innerReads
  | unary written operand operandReads => exact reads_unary written operandReads
  | binary isBinary left right leftReads rightReads =>
    exact reads_binary isBinary leftReads rightReads
  | conditional condition first second conditionReads firstReads secondReads =>
    exact reads_conditional conditionReads firstReads secondReads
  | lift higher reads => exact reads.lift

/-- A sequence that the grammar derives is accepted, and the end of the line
leaves the outcome of its tree. -/
theorem parseExpr_of_derives {tokens : List (Token part)} {tree : Tree part}
    {outcome : Outcome part} (derives : Derives conditionalOfReduce 2 1 tokens tree)
    (run : tree.run precision 0 = some outcome) :
    parseExpr precision tokens = .ok ((Parser.initial part).settle outcome) := by
  obtain ⟨after, read, settles⟩ := reads_of_derives derives (Parser.initial part) outcome
    (List.cons_ne_nil _ _) (Or.inr (Nat.zero_lt_two)) run
  have reduced : reduceLoop precision .eof after = .ok ((Parser.initial part).settle outcome) := by
    rw [settles .eof (by decide)]
    exact reduceLoop_stop (Nat.le_refl 0) (by decide)
  simp only [parseExpr, read, bind, Except.bind, parseEnd, reduce, reduced, checkOperand,
    Op.noLeftOperand, Bool.false_eq_true, reduceCtorEq, if_false]
  rfl

/-- The evaluation has not ended, or will not end with the next `reduce`. -/
def StallsAt (precision level : Nat) (result : Except SyntaxError (Bool × Parser part)) : Prop :=
  result = .error .diverges ∨ ∃ after, result = .ok (false, after) ∧
    ∀ incoming : Op, incoming.pushPrio < level →
      reduceLoop precision incoming after = .error .diverges

/-- Reading the tokens stalls whenever the evaluation of the tree does. -/
def Stalls (precision level start : Nat) (tokens : List (Token part)) (tree : Tree part) : Prop :=
  ∀ parser : Parser part, parser.stack ≠ [] → (16 ≤ level ∨ parser.topPrio < level) →
    tree.run precision parser.skipEval = none →
    StallsAt precision level (parseTokens precision tokens start true parser)

theorem StallsAt.lower {level level' : Nat} {result : Except SyntaxError (Bool × Parser part)}
    (stalls : StallsAt precision level' result) (le : level ≤ level') :
    StallsAt precision level result := by
  obtain failed | ⟨after, read, fails⟩ := stalls
  · exact Or.inl failed
  · exact Or.inr ⟨after, read, fun incoming below => fails incoming (below.trans_le le)⟩

theorem parseTokens_stalled {op : Op} {level start : Nat} {first rest : List (Token part)}
    {parser : Parser part}
    (between : op.isBinary = true ∨ op = .query ∨ op = .colon ∨ op = .closeParen)
    (stalls : StallsAt precision level (parseTokens precision first start true parser))
    (below : op.pushPrio < level) :
    parseTokens precision (first ++ .operator op :: rest) start true parser =
      .error .diverges := by
  obtain failed | ⟨after, read, fails⟩ := stalls
  · rw [parseTokens_append, failed]
    rfl
  · have stops : parseToken precision (start + first.length) false after (.operator op) =
        .error .diverges := by
      have fails := fails op below
      cases op <;> simp_all [parseToken, parseOperator, checkOperand, Op.noLeftOperand,
        Op.isBinary, Op.leftAssoc, reduce, bind, Except.bind]
    rw [parseTokens_operand read, parseTokens, stops]
    rfl

theorem stalls_paren {start : Nat} {tokens : List (Token part)} {tree : Tree part}
    (inner : Stalls precision 2 (start + 1) tokens tree) :
    Stalls precision 16 start (.operator .openParen :: (tokens ++ [.operator .closeParen]))
      (.paren tree) := by
  intro parser nonempty low run
  have stalls := inner (parser.push .openParen start parser.skipEval) (push_ne_nil _ _ _ _)
    (Or.inr (by rw [topPrio_push]; decide)) run
  left
  rw [parseTokens_operator (parseToken_openParen start parser)]
  exact parseTokens_stalled (Or.inr (Or.inr (Or.inr rfl))) stalls (by decide)

theorem stalls_unary {start : Nat} {op written : Op} {tokens : List (Token part)}
    {tree : Tree part} (unary : op.unaryToken = some written)
    (operand : Stalls precision 16 (start + 1) tokens tree) :
    Stalls precision 16 start (.operator written :: tokens) (.unary start op tree) := by
  intro parser nonempty low run
  have innerRun : tree.run precision parser.skipEval = none := by
    apply Option.eq_none_iff_forall_ne_some.mpr
    simpa [Tree.run] using run
  rw [parseTokens_operator (parseToken_unary unary start parser)]
  exact operand _ (push_ne_nil _ _ _ _) (Or.inl (Nat.le_refl 16)) innerRun

theorem stalls_infixed {op : Op} {start : Nat} {left right : List (Token part)}
    {rightTree : Tree part} {parser after : Parser part} {first : Outcome part}
    {skipEval : Int} (isBinary : op.isBinary = true) (low : parser.topPrio < op.prio)
    (leftRead : parseTokens precision left start true parser = .ok (false, after))
    (leftSettles : SettlesTo precision op.prio after (parser.settle first))
    (adjusted : adjustSkip op (parser.settle first) = .ok skipEval)
    (rightStalls : Stalls precision (op.prio + 1) (start + left.length + 1) right rightTree)
    (rightRun : rightTree.run precision skipEval = none) :
    StallsAt precision op.prio
      (parseTokens precision (left ++ .operator op :: right) start true parser) := by
  have pushes := (pushPrio_of_isBinary isBinary).1
  rw [parseTokens_infixed (Or.inl isBinary) leftRead leftSettles (by omega) (by omega) adjusted]
  apply StallsAt.lower _ (Nat.le_succ op.prio)
  apply rightStalls _ (push_ne_nil _ _ _ _) (Or.inr _) rightRun
  rw [topPrio_push]
  exact Nat.lt_succ_self _

theorem reduceOne_diverges {op incoming : Op} {token : Nat} {parser : Parser part}
    {first second : Outcome part} (isBinary : op.isBinary = true) (notAnd : op ≠ .andAnd)
    (notOr : op ≠ .orOr) (diverges : evalBinary precision op first.value second.value = none)
    (nonempty : parser.stack ≠ []) :
    reduceOne precision incoming
        (((parser.settle first).push op token parser.skipEval).settle second) =
      .error .diverges := by
  obtain ⟨stack, skipEval, evaluated, diagnostics⟩ := parser
  cases stack with
  | nil => exact absurd rfl nonempty
  | cons top rest =>
    cases op <;> simp_all [Op.isBinary, Op.leftAssoc, reduceOne, Parser.settle, Parser.push,
      Parser.setTop, Entry.setValue]

theorem stalls_arithmetic {op : Op} {start : Nat} {left right : List (Token part)}
    {rightTree : Tree part} {parser after : Parser part} {first second : Outcome part}
    (isBinary : op.isBinary = true) (notAnd : op ≠ .andAnd) (notOr : op ≠ .orOr)
    (low : parser.topPrio < op.prio)
    (leftRead : parseTokens precision left start true parser = .ok (false, after))
    (leftSettles : SettlesTo precision op.prio after (parser.settle first))
    (rightReads : Reads precision (op.prio + 1) (start + left.length + 1) right rightTree)
    (rightRun : rightTree.run precision parser.skipEval = some second)
    (diverges : evalBinary precision op first.value second.value = none)
    (nonempty : parser.stack ≠ []) :
    StallsAt precision op.prio
      (parseTokens precision (left ++ .operator op :: right) start true parser) := by
  have pushes := (pushPrio_of_isBinary isBinary).1
  obtain ⟨final, rightRead, rightSettles⟩ := rightReads
    ((parser.settle first).push op (start + left.length) parser.skipEval) second
    (push_ne_nil _ _ _ _) (Or.inr (by rw [topPrio_push]; exact Nat.lt_succ_self _)) rightRun
  refine Or.inr ⟨final, ?_, ?_⟩
  · rw [parseTokens_infixed (Or.inl isBinary) leftRead leftSettles (by omega) (by omega)
      (adjustSkip_arithmetic isBinary notAnd notOr _)]
    exact rightRead
  · intro incoming below
    rw [rightSettles incoming (Nat.lt_succ_of_lt below)]
    apply reduceLoop_error
    · rw [topPrio_settle, topPrio_push]
      exact below
    · exact reduceOne_diverges isBinary notAnd notOr diverges nonempty

theorem stalls_binary {start : Nat} {op : Op} {left right : List (Token part)}
    {leftTree rightTree : Tree part} (isBinary : op.isBinary = true)
    (leftReads : Reads precision op.prio start left leftTree)
    (rightReads : Reads precision (op.prio + 1) (start + left.length + 1) right rightTree)
    (leftStalls : Stalls precision op.prio start left leftTree)
    (rightStalls : Stalls precision (op.prio + 1) (start + left.length + 1) right rightTree) :
    Stalls precision op.prio start (left ++ .operator op :: right)
      (.binary (start + left.length) op leftTree rightTree) := by
  intro parser nonempty low run
  obtain ⟨pushes, small, -⟩ := pushPrio_of_isBinary isBinary
  have lower : parser.topPrio < op.prio := by omega
  cases leftRun : leftTree.run precision parser.skipEval with
  | none =>
    left
    exact parseTokens_stalled (Or.inl isBinary) (leftStalls parser nonempty low leftRun) (by omega)
  | some first =>
    obtain ⟨after, leftRead, leftSettles⟩ :=
      leftReads parser first nonempty (Or.inr lower) leftRun
    simp only [Tree.run, leftRun, bind, Option.bind_some] at run
    by_cases isAnd : op = .andAnd
    · subst isAnd
      simp only [if_true, Option.bind_eq_none_iff, pure, reduceCtorEq] at run
      exact stalls_infixed isBinary lower leftRead leftSettles (adjustSkip_andAnd nonempty)
        rightStalls (Option.eq_none_iff_forall_ne_some.mpr run)
    · by_cases isOr : op = .orOr
      · subst isOr
        simp only [reduceCtorEq, if_false, if_true, Option.bind_eq_none_iff, pure] at run
        exact stalls_infixed isBinary lower leftRead leftSettles (adjustSkip_orOr nonempty)
          rightStalls (Option.eq_none_iff_forall_ne_some.mpr run)
      · simp only [isAnd, isOr, if_false, pure] at run
        cases rightRun : rightTree.run precision parser.skipEval with
        | none =>
          exact stalls_infixed isBinary lower leftRead leftSettles
            (adjustSkip_arithmetic isBinary isAnd isOr _) rightStalls rightRun
        | some second =>
          have diverges : evalBinary precision op first.value second.value = none := by
            apply Option.eq_none_iff_forall_ne_some.mpr
            simpa [rightRun] using run
          exact stalls_arithmetic isBinary isAnd isOr lower leftRead leftSettles rightReads
            rightRun diverges nonempty

theorem stalls_conditional {start : Nat} {condition first second : List (Token part)}
    {conditionTree firstTree secondTree : Tree part}
    (conditionReads : Reads precision 4 start condition conditionTree)
    (firstReads : Reads precision 4 (start + condition.length + 1) first firstTree)
    (conditionStalls : Stalls precision 4 start condition conditionTree)
    (firstStalls : Stalls precision 4 (start + condition.length + 1) first firstTree)
    (secondStalls : Stalls precision 5 (start + condition.length + 1 + first.length + 1) second
      secondTree) :
    Stalls precision 4 start
      (condition ++ .operator .query :: (first ++ .operator .colon :: second))
      (.conditional conditionTree firstTree secondTree) := by
  intro parser nonempty low run
  have lower : parser.topPrio < 4 := by omega
  cases testedRun : conditionTree.run precision parser.skipEval with
  | none =>
    left
    exact parseTokens_stalled (Or.inr (Or.inl rfl))
      (conditionStalls parser nonempty low testedRun) (by decide)
  | some tested =>
    obtain ⟨afterCondition, conditionRead, conditionSettles⟩ :=
      conditionReads parser tested nonempty (Or.inr lower) testedRun
    rw [parseTokens_query lower conditionRead conditionSettles nonempty]
    cases oneRun : firstTree.run precision
        (if numZerop tested.value then parser.skipEval + 1 else parser.skipEval) with
    | none =>
      left
      exact parseTokens_stalled (Or.inr (Or.inr (Or.inl rfl)))
        (firstStalls _ (push_ne_nil _ _ _ _) (Or.inr (by rw [topPrio_push]; decide)) oneRun)
        (by decide)
    | some one =>
      obtain ⟨afterFirst, firstRead, firstSettles⟩ := firstReads
        ((parser.settle tested).push .query (start + condition.length)
          (if numZerop tested.value then parser.skipEval + 1 else parser.skipEval)) one
        (push_ne_nil _ _ _ _) (Or.inr (by rw [topPrio_push]; decide)) oneRun
      rw [parseTokens_colon firstRead firstSettles nonempty]
      apply StallsAt.lower _ (Nat.le_succ 4)
      apply secondStalls _ (push_ne_nil _ _ _ _) (Or.inr (by rw [topPrio_push]; decide))
      rw [push_skipEval]
      apply Option.eq_none_iff_forall_ne_some.mpr
      simpa [Tree.run, testedRun, oneRun] using run

theorem stalls_of_derives {level start : Nat} {tokens : List (Token part)} {tree : Tree part}
    (derives : Derives conditionalOfReduce level start tokens tree) :
    Stalls precision level start tokens tree := by
  induction derives with
  | value start num =>
    intro parser nonempty low run
    cases run
  | paren inner innerStalls => exact stalls_paren innerStalls
  | unary written operand operandStalls => exact stalls_unary written operandStalls
  | binary isBinary left right leftStalls rightStalls =>
    exact stalls_binary isBinary (reads_of_derives left) (reads_of_derives right) leftStalls
      rightStalls
  | conditional condition first second conditionStalls firstStalls secondStalls =>
    exact stalls_conditional (reads_of_derives condition) (reads_of_derives first)
      conditionStalls firstStalls secondStalls
  | lift higher stalls =>
    intro parser nonempty low run
    exact (stalls parser nonempty (by omega) run).lower (Nat.le_succ _)

theorem parseExpr_of_diverges {tokens : List (Token part)} {tree : Tree part}
    (derives : Derives conditionalOfReduce 2 1 tokens tree)
    (run : tree.run precision 0 = none) : parseExpr precision tokens = .error .diverges := by
  obtain failed | ⟨after, read, fails⟩ := stalls_of_derives derives (Parser.initial part)
    (List.cons_ne_nil _ _) (Or.inr (Nat.zero_lt_two)) run
  · simp only [parseExpr, failed, bind, Except.bind]
  · have reduced := fails .eof (by decide)
    simp only [parseExpr, read, bind, Except.bind, parseEnd, reduce, reduced, checkOperand,
      Op.noLeftOperand, Bool.false_eq_true, reduceCtorEq, if_false]

end Parse

end GccCil.Libcpp
