import GccCil.Libcpp.Parsing

/-!
# What the parser accepts

The tokens read so far are the operators on the stack with their left operands,
and where no value is wanted the operand on top.  The level of that operand is
always high enough for the operator below it, so that each reduction builds a
node of the grammar.  An accepted sequence is therefore an expression.
-/

namespace GccCil.Libcpp

section Acceptance

variable {part : Nat} {precision : Nat}

/-- The level that an operator wants its right operand to have. -/
def rightLevel (op : Op) : Nat := min 16 (max 2 (op.prio + 1))

theorem rightLevel_le (op : Op) : rightLevel op ≤ 16 :=
  Nat.min_le_left _ _

def Parser.ops (parser : Parser part) : List Op := parser.stack.map Entry.op

theorem topPrio_eq (parser : Parser part) : parser.topPrio = parser.topOp.prio := by
  unfold Parser.topPrio Parser.topOp
  cases parser.stack <;> rfl

theorem topOp_eq (parser : Parser part) : parser.topOp = parser.ops.headD .eof := by
  unfold Parser.topOp Parser.ops
  cases parser.stack <;> rfl

theorem ops_push (parser : Parser part) (op : Op) (token : Nat) (skipEval : Int) :
    (parser.push op token skipEval).ops = op :: parser.ops :=
  rfl

theorem ops_setTop (parser : Parser part) (value : CppNum part) :
    (parser.setTop value).ops = parser.ops := by
  unfold Parser.setTop Parser.ops
  cases parser.stack <;> rfl

inductive Wants {part : Nat} : List Op → List (Token part) → Prop where
  | eof : Wants [.eof] []
  | openParen {ops : List Op} {consumed : List (Token part)} (before : Wants ops consumed) :
      Wants (.openParen :: ops) (consumed ++ [.operator .openParen])
  | unary {op token : Op} {ops : List Op} {consumed : List (Token part)}
      (written : op.unaryToken = some token) (before : Wants ops consumed) :
      Wants (op :: ops) (consumed ++ [.operator token])
  | binary {op top : Op} {ops : List Op} {consumed left : List (Token part)} {tree : Tree part}
      (isBinary : op.isBinary = true) (before : Wants (top :: ops) consumed)
      (lower : top.prio < op.prio)
      (leftDerives : Derives conditionalOfReduce op.prio (1 + consumed.length) left tree) :
      Wants (op :: top :: ops) (consumed ++ left ++ [.operator op])
  | query {top : Op} {ops : List Op} {consumed condition : List (Token part)} {tree : Tree part}
      (before : Wants (top :: ops) consumed) (lower : top.prio < 4)
      (conditionDerives : Derives conditionalOfReduce 4 (1 + consumed.length) condition tree) :
      Wants (.query :: top :: ops) (consumed ++ condition ++ [.operator .query])
  | colon {ops : List Op} {consumed first : List (Token part)} {tree : Tree part}
      (before : Wants (.query :: ops) consumed)
      (firstDerives : Derives conditionalOfReduce 4 (1 + consumed.length) first tree) :
      Wants (.colon :: .query :: ops) (consumed ++ first ++ [.operator .colon])

def Has (level : Nat) (ops : List Op) (consumed : List (Token part)) : Prop :=
  ∃ (before operand : List (Token part)) (tree : Tree part), consumed = before ++ operand ∧
    Wants ops before ∧ rightLevel (ops.headD .eof) ≤ level ∧
    Derives conditionalOfReduce level (1 + before.length) operand tree

theorem Wants.has_primary {ops : List Op} {before operand : List (Token part)} {tree : Tree part}
    (wants : Wants ops before)
    (derives : Derives conditionalOfReduce 16 (1 + before.length) operand tree) :
    Has 16 ops (before ++ operand) :=
  ⟨before, operand, tree, rfl, wants, rightLevel_le _, derives⟩

theorem Wants.ops_ne_nil {ops : List Op} {consumed : List (Token part)}
    (wants : Wants ops consumed) : ops ≠ [] := by
  cases wants <;> exact List.cons_ne_nil _ _

theorem Wants.ops_eq {parser : Parser part} {consumed : List (Token part)}
    (wants : Wants parser.ops consumed) : ∃ rest, parser.ops = parser.topOp :: rest := by
  obtain ⟨top, rest, shape⟩ := List.exists_cons_of_ne_nil wants.ops_ne_nil
  refine ⟨rest, ?_⟩
  rw [topOp_eq, shape]
  rfl

theorem Has.ops_eq {level : Nat} {parser : Parser part} {consumed : List (Token part)}
    (has : Has level parser.ops consumed) : ∃ rest, parser.ops = parser.topOp :: rest := by
  obtain ⟨before, operand, tree, rfl, wants, fits, derives⟩ := has
  exact wants.ops_eq

theorem reduceOne_again_ops {incoming : Op} {parser parser' : Parser part}
    (reduced : reduceOne precision incoming parser = .ok (.again parser')) :
    parser'.ops = parser.ops.drop (if parser.topOp = .colon then 2 else 1) ∧
      parser.topOp ≠ .eof ∧ parser.topOp ≠ .openParen ∧ parser.topOp ≠ .query := by
  unfold reduceOne at reduced
  repeat' split at reduced
  all_goals
    simp only [Except.ok.injEq, Reduction.again.injEq, reduceCtorEq] at reduced
  all_goals
    subst reduced
    simp_all [Parser.evaluate, Parser.ops, Parser.topOp, Entry.setValue]

theorem reduceOne_closed_ops {incoming : Op} {parser parser' : Parser part}
    (reduced : reduceOne precision incoming parser = .ok (.closed parser')) :
    parser'.ops = parser.ops.drop 1 ∧ parser.topOp = .openParen ∧ incoming = .closeParen := by
  unfold reduceOne at reduced
  repeat' split at reduced
  all_goals
    simp only [Except.ok.injEq, Reduction.closed.injEq, reduceCtorEq] at reduced
  subst reduced
  simp_all [Parser.ops, Parser.topOp, Entry.setValue]

theorem rightLevel_le_of_prio_lt {op : Op} {level : Nat} (lower : op.prio < level)
    (atLeast : 2 ≤ level) : rightLevel op ≤ level := by
  unfold rightLevel
  omega

theorem Wants.reduce_unary {op token : Op} {level : Nat} {ops : List Op}
    {consumed operand : List (Token part)} {tree : Tree part} (wants : Wants ops consumed)
    (written : op.unaryToken = some token) (fits : rightLevel op ≤ level)
    (derives : Derives conditionalOfReduce level
      (1 + (consumed ++ [Token.operator token]).length) operand tree) :
    Has op.prio ops (consumed ++ [.operator token] ++ operand) := by
  have isUnary : op.prio = 16 ∧ rightLevel op = 16 := by
    cases op <;> cases written <;> decide
  have inner := derives.lower (isUnary.2 ▸ fits)
  rw [isUnary.1, List.append_assoc]
  apply wants.has_primary
  apply Derives.unary written
  rwa [List.length_append, ← Nat.add_assoc] at inner

theorem Wants.reduce_binary {op below : Op} {level : Nat} {ops : List Op}
    {consumed left operand : List (Token part)} {leftTree tree : Tree part}
    (isBinary : op.isBinary = true) (wants : Wants (below :: ops) consumed)
    (lower : below.prio < op.prio)
    (leftDerives : Derives conditionalOfReduce op.prio (1 + consumed.length) left leftTree)
    (fits : rightLevel op ≤ level)
    (derives : Derives conditionalOfReduce level
      (1 + (consumed ++ left ++ [Token.operator op]).length) operand tree) :
    Has op.prio (below :: ops) (consumed ++ left ++ [.operator op] ++ operand) := by
  have isInner : rightLevel op = op.prio + 1 ∧ 2 ≤ op.prio := by
    revert isBinary
    cases op <;> decide
  have inner := derives.lower (isInner.1 ▸ fits)
  rw [List.length_append, List.length_append, ← Nat.add_assoc, ← Nat.add_assoc] at inner
  refine ⟨consumed, left ++ .operator op :: operand, _, by simp, wants,
    rightLevel_le_of_prio_lt lower isInner.2, Derives.binary isBinary leftDerives inner⟩

theorem Wants.reduce_colon {level : Nat} {ops : List Op} {consumed first operand : List (Token part)}
    {firstTree tree : Tree part} (wants : Wants (.query :: ops) consumed)
    (firstDerives : Derives conditionalOfReduce 4 (1 + consumed.length) first firstTree)
    (fits : 5 ≤ level)
    (derives : Derives conditionalOfReduce level
      (1 + (consumed ++ first ++ [Token.operator .colon]).length) operand tree) :
    Has 4 ops (consumed ++ first ++ [.operator .colon] ++ operand) := by
  cases wants with
  | unary written before => cases written
  | binary isBinary before lower left => cases isBinary
  | @query top ops before condition conditionTree wants lower conditionDerives =>
    have inner := derives.lower fits
    simp only [List.length_append, List.length_singleton, ← Nat.add_assoc] at inner firstDerives
    exact ⟨before, condition ++ .operator .query :: (first ++ .operator .colon :: operand), _,
      by simp, wants, rightLevel_le_of_prio_lt lower (by decide),
      Derives.conditional conditionDerives firstDerives inner⟩

theorem Has.reduce {level : Nat} {top : Op} {ops : List Op} {consumed : List (Token part)}
    (has : Has level (top :: ops) consumed) (notEof : top ≠ .eof) (notOpen : top ≠ .openParen)
    (notQuery : top ≠ .query) :
    Has top.prio ((top :: ops).drop (if top = .colon then 2 else 1)) consumed := by
  obtain ⟨before, operand, tree, rfl, wants, fits, derives⟩ := has
  cases wants with
  | eof => exact absurd rfl notEof
  | openParen before => exact absurd rfl notOpen
  | query before lower condition => exact absurd rfl notQuery
  | unary written wants =>
    have notColon : top ≠ .colon := by
      rintro rfl
      cases written
    rw [if_neg notColon]
    exact wants.reduce_unary written fits derives
  | binary isBinary wants lower leftDerives =>
    have notColon : top ≠ .colon := by
      rintro rfl
      cases isBinary
    rw [if_neg notColon]
    exact wants.reduce_binary isBinary lower leftDerives fits derives
  | colon wants firstDerives => exact wants.reduce_colon firstDerives fits derives

theorem Has.close {level : Nat} {ops : List Op} {consumed : List (Token part)}
    (has : Has level (.openParen :: ops) consumed) :
    Has 16 ops (consumed ++ [.operator .closeParen]) := by
  obtain ⟨before, operand, tree, rfl, wants, fits, derives⟩ := has
  cases wants with
  | unary written before => cases written
  | binary isBinary before lower left => cases isBinary
  | @openParen _ consumed wants =>
    have inner := derives.lower fits
    rw [List.length_append, ← Nat.add_assoc] at inner
    rw [List.append_assoc, List.append_assoc]
    apply wants.has_primary
    exact Derives.paren inner

/-- What `reduce` leaves: a parenthesized expression, or an operand that suits
the incoming operator on top of an operator of lower priority. -/
theorem reduceLoop_has {incoming : Op} {level : Nat} {parser parser' : Parser part}
    {consumed : List (Token part)} (has : Has level parser.ops consumed)
    (high : incoming.pushPrio < level)
    (reduced : reduceLoop precision incoming parser = .ok parser') :
    (incoming = .closeParen ∧ Has 16 parser'.ops (consumed ++ [.operator .closeParen])) ∨
      (incoming ≠ .closeParen ∧ parser'.topPrio ≤ incoming.pushPrio ∧
        ∃ level', incoming.pushPrio < level' ∧ Has level' parser'.ops consumed) := by
  induction parser using reduceLoop.induct precision incoming generalizing level with
  | case1 parser higher failure failed =>
    rw [reduceLoop_error higher failed] at reduced
    cases reduced
  | case2 parser higher closed closes =>
    rw [reduceLoop_closed higher closes] at reduced
    cases reduced
    obtain ⟨left, isOpen, isClose⟩ := reduceOne_closed_ops closes
    obtain ⟨rest, shape⟩ := has.ops_eq
    rw [shape, isOpen] at has
    refine Or.inl ⟨isClose, ?_⟩
    rw [left, shape]
    exact has.close
  | case3 parser higher next again ih =>
    rw [reduceLoop_again higher again] at reduced
    obtain ⟨left, notEof, notOpen, notQuery⟩ := reduceOne_again_ops again
    obtain ⟨rest, shape⟩ := has.ops_eq
    rw [shape] at has left
    have reducedHas := has.reduce notEof notOpen notQuery
    rw [← left] at reducedHas
    exact ih reducedHas (topPrio_eq parser ▸ higher) reduced
  | case4 parser notHigher isClose =>
    rw [reduceLoop, if_neg notHigher, if_pos isClose] at reduced
    cases reduced
  | case5 parser notHigher notClose =>
    rw [reduceLoop, if_neg notHigher, if_neg notClose] at reduced
    cases reduced
    exact Or.inr ⟨notClose, Nat.le_of_not_lt notHigher, level, high, has⟩

def Between (consumed : List (Token part)) (wantValue : Bool) (parser : Parser part) : Prop :=
  if wantValue then Wants parser.ops consumed else Has 16 parser.ops consumed

/-- An operator that is read has passed the check of its operands, and is pushed
after the stack is reduced. -/
theorem parseOperator_ok {op : Op} {token : Nat} {wantValue wantValue' : Bool}
    {parser parser' : Parser part} (notClose : op ≠ .closeParen)
    (parsed : parseOperator precision op token wantValue parser = .ok (wantValue', parser')) :
    checkOperand op wantValue parser.topOp = .ok () ∧
      ∃ reduced skipEval, reduce precision op parser = .ok reduced ∧
        adjustSkip op reduced = .ok skipEval ∧ wantValue' = true ∧
        parser' = reduced.push op token skipEval := by
  simp only [parseOperator, if_neg notClose, bind, Except.bind] at parsed
  split at parsed
  · cases parsed
  · rename_i checked
    refine ⟨checked, ?_⟩
    split at parsed
    · cases parsed
    · rename_i reduced reduces
      split at parsed
      · cases parsed
      · rename_i skipEval adjusted
        cases parsed
        exact ⟨reduced, skipEval, reduces, adjusted, rfl, rfl⟩

theorem parseOperator_close_ok {token : Nat} {wantValue wantValue' : Bool}
    {parser parser' : Parser part}
    (parsed : parseOperator precision .closeParen token wantValue parser =
      .ok (wantValue', parser')) :
    checkOperand .closeParen wantValue parser.topOp = .ok () ∧ wantValue' = wantValue ∧
      reduceLoop precision .closeParen parser = .ok parser' := by
  simp only [parseOperator, if_true, bind, Except.bind] at parsed
  split at parsed
  · cases parsed
  · rename_i checked
    refine ⟨checked, ?_⟩
    split at parsed
    · cases parsed
    · rename_i reduced reduces
      cases parsed
      exact ⟨rfl, reduces⟩

theorem topOp_of_colon {parser : Parser part} {skipEval : Int}
    (adjusted : adjustSkip .colon parser = .ok skipEval) : parser.topOp = .query := by
  unfold adjustSkip at adjusted
  repeat' split at adjusted
  all_goals first | contradiction | simp_all [Parser.topOp]

theorem between_operator {op : Op} {token : Nat} {wantValue' : Bool} {parser parser' : Parser part}
    {consumed : List (Token part)} (has : Has 16 parser.ops consumed)
    (between : op.isBinary = true ∨ op = .query ∨ op = .colon)
    (parsed : parseOperator precision op token false parser = .ok (wantValue', parser')) :
    Between (consumed ++ [.operator op]) wantValue' parser' := by
  have shape : op.pushPrio < 16 ∧ op ≠ .closeParen ∧ op ≠ .openParen := by
    obtain isBinary | rfl | rfl := between
    · revert isBinary
      cases op <;> decide
    · decide
    · decide
  obtain ⟨small, notClose, notOpen⟩ := shape
  obtain ⟨-, reduced, skipEval, reduces, adjusted, rfl, rfl⟩ := parseOperator_ok notClose parsed
  rw [reduce, if_neg notOpen] at reduces
  obtain ⟨isClose, -⟩ | ⟨-, low, level, high, reducedHas⟩ := reduceLoop_has has small reduces
  · exact absurd isClose notClose
  · obtain ⟨rest, stack⟩ := reducedHas.ops_eq
    rw [topPrio_eq] at low
    rw [stack] at reducedHas
    obtain ⟨before, operand, tree, rfl, wants, fits, derives⟩ := reducedHas
    simp only [Between, if_true, ops_push]
    rw [stack]
    obtain isBinary | rfl | rfl := between
    · have pushes := (pushPrio_of_isBinary isBinary).1
      exact Wants.binary isBinary wants (by omega) (derives.lower (by omega))
    · exact Wants.query wants (Nat.lt_succ_of_le low) (derives.lower high)
    · have isQuery := topOp_of_colon adjusted
      rw [isQuery] at wants ⊢
      exact Wants.colon wants (derives.lower high)

theorem between_close {token : Nat} {wantValue wantValue' : Bool} {parser parser' : Parser part}
    {consumed : List (Token part)} (state : Between consumed wantValue parser)
    (parsed : parseOperator precision .closeParen token wantValue parser =
      .ok (wantValue', parser')) :
    Between (consumed ++ [.operator .closeParen]) wantValue' parser' := by
  obtain ⟨checked, rfl, reduces⟩ := parseOperator_close_ok parsed
  cases wantValue' with
  | true =>
    -- only the end of the line is left on the stack, so there is no `(`
    have isEof : parser.topOp = .eof := by
      revert checked
      cases parser.topOp <;> decide
    have stops : parser.topPrio = 0 := by
      rw [topPrio_eq, isEof]
      rfl
    rw [reduceLoop, stops] at reduces
    cases reduces
  | false =>
    obtain ⟨-, closed⟩ | ⟨notClose, -⟩ := reduceLoop_has state (by decide) reduces
    · exact closed
    · exact absurd rfl notClose

theorem noLeftOperand_of_wanted {op top : Op} (checked : checkOperand op true top = .ok ()) :
    op.noLeftOperand = true ∨ op = .closeParen ∨ op = .eof := by
  unfold checkOperand at checked
  repeat' split at checked
  all_goals simp_all

theorem parseToken_ok {op : Op} {number : Nat} {wantValue : Bool} {parser : Parser part}
    {result : Bool × Parser part}
    (notUnary : wantValue = false ∨ ∀ unary : Op, unary.unaryToken ≠ some op)
    (parsed : parseToken precision number wantValue parser (.operator op) = .ok result) :
    (op ≠ .eq ∧ op ≠ .eof ∧ op ≠ .uplus ∧ op ≠ .uminus) ∧
      parseOperator precision op number wantValue parser = .ok result := by
  simp only [parseToken] at parsed
  split at parsed
  · cases parsed
  · rename_i valid
    simp only [not_or] at valid
    split at parsed
    · rename_i isPlus
      obtain notWanted | notUnary := notUnary
      · rw [notWanted] at isPlus
        cases isPlus.2
      · exact absurd (isPlus.1 ▸ rfl) (notUnary .uplus)
    · split at parsed
      · rename_i isMinus
        obtain notWanted | notUnary := notUnary
        · rw [notWanted] at isMinus
          cases isMinus.2
        · exact absurd (isMinus.1 ▸ rfl) (notUnary .uminus)
      · exact ⟨valid, parsed⟩

theorem between_wanted {op : Op} {token : Nat} {wantValue' : Bool} {parser parser' : Parser part}
    {consumed : List (Token part)} (wants : Wants parser.ops consumed)
    (parsed : parseToken precision token true parser (.operator op) = .ok (wantValue', parser')) :
    Between (consumed ++ [.operator op]) wantValue' parser' := by
  by_cases isUnary : ∃ unary : Op, unary.unaryToken = some op
  · obtain ⟨unary, written⟩ := isUnary
    rw [parseToken_unary written] at parsed
    cases parsed
    exact wants.unary written
  · by_cases isOpen : op = .openParen
    · subst isOpen
      rw [parseToken_openParen] at parsed
      cases parsed
      exact wants.openParen
    · by_cases isClose : op = .closeParen
      · subst isClose
        exact between_close (show Between consumed true parser from wants) parsed
      · have notUnary : ∀ unary : Op, unary.unaryToken ≠ some op := fun unary written =>
          isUnary ⟨unary, written⟩
        obtain ⟨valid, parsed⟩ := parseToken_ok (Or.inr notUnary) parsed
        obtain noLeft | rfl | rfl := noLeftOperand_of_wanted (parseOperator_ok isClose parsed).1
        · exfalso
          cases op with
          | not => exact notUnary .not rfl
          | compl => exact notUnary .compl rfl
          | openParen => exact isOpen rfl
          | uplus => exact valid.2.2.1 rfl
          | uminus => exact valid.2.2.2 rfl
          | _ => cases noLeft
        · exact absurd rfl isClose
        · exact absurd rfl valid.2.1

theorem between_unwanted {op : Op} {token : Nat} {wantValue' : Bool} {parser parser' : Parser part}
    {consumed : List (Token part)} (has : Has 16 parser.ops consumed)
    (parsed : parseToken precision token false parser (.operator op) = .ok (wantValue', parser')) :
    Between (consumed ++ [.operator op]) wantValue' parser' := by
  obtain ⟨valid, parsed⟩ := parseToken_ok (Or.inl rfl) parsed
  by_cases isClose : op = .closeParen
  · subst isClose
    exact between_close (show Between consumed false parser from has) parsed
  · have checked := (parseOperator_ok isClose parsed).1
    have hasLeft : op.noLeftOperand = false := by
      cases noLeft : op.noLeftOperand with
      | false => rfl
      | true => simp [checkOperand, noLeft] at checked
    have between : op.isBinary = true ∨ op = .query ∨ op = .colon := by
      cases op <;> simp_all [Op.isBinary, Op.leftAssoc, Op.noLeftOperand]
    exact between_operator has between parsed

theorem between_step {token : Token part} {number : Nat} {wantValue wantValue' : Bool}
    {parser parser' : Parser part} {consumed : List (Token part)}
    (state : Between consumed wantValue parser)
    (parsed : parseToken precision number wantValue parser token = .ok (wantValue', parser')) :
    Between (consumed ++ [token]) wantValue' parser' := by
  cases token with
  | other => cases parsed
  | value num =>
    cases wantValue with
    | false => cases parsed
    | true =>
      cases parsed
      have wants : Wants (parser.setTop num).ops consumed := by
        rw [ops_setTop]
        exact state
      exact wants.has_primary (Derives.value _ num)
  | operator op =>
    cases wantValue with
    | true => exact between_wanted state parsed
    | false => exact between_unwanted state parsed

theorem between_run {tokens consumed : List (Token part)} {number : Nat}
    {wantValue wantValue' : Bool} {parser parser' : Parser part}
    (state : Between consumed wantValue parser)
    (parsed : parseTokens precision tokens number wantValue parser = .ok (wantValue', parser')) :
    Between (consumed ++ tokens) wantValue' parser' := by
  induction tokens generalizing consumed number wantValue parser with
  | nil =>
    cases parsed
    rw [List.append_nil]
    exact state
  | cons token rest ih =>
    simp only [parseTokens, bind, Except.bind] at parsed
    split at parsed
    · cases parsed
    · rename_i next step
      have result := ih (between_step state step) parsed
      rwa [List.append_assoc] at result

theorem Wants.eof_of_prio {top : Op} {ops : List Op} {consumed : List (Token part)}
    (wants : Wants (top :: ops) consumed) (lowest : top.prio = 0) : top = .eof ∧ consumed = [] := by
  cases wants with
  | eof => exact ⟨rfl, rfl⟩
  | openParen before => cases lowest
  | query before lower condition => cases lowest
  | colon before first => cases lowest
  | unary written before =>
    exfalso
    cases top <;> cases written <;> cases lowest
  | binary isBinary before lower left => exact absurd (lowest ▸ lower) (Nat.not_lt_zero _)

theorem reduceLoop_eof_open {parser parser' : Parser part} (isOpen : parser.topOp = .openParen) :
    reduceLoop precision .eof parser ≠ .ok parser' := by
  intro reduced
  have higher : Op.eof.pushPrio < parser.topPrio := by
    rw [topPrio_eq, isOpen]
    decide
  cases step : reduceOne precision .eof parser with
  | error failure =>
    rw [reduceLoop_error higher step] at reduced
    cases reduced
  | ok reduction =>
    cases reduction with
    | again next => exact (reduceOne_again_ops step).2.2.1 isOpen
    | closed next => cases (reduceOne_closed_ops step).2.2

theorem openParen_of_wanted {top : Op} (checked : checkOperand .eof true top = .ok ()) :
    top = .openParen := by
  revert checked
  cases top <;> decide

theorem derives_of_parseExpr {tokens : List (Token part)} {final : Parser part}
    (accepted : parseExpr precision tokens = .ok final) :
    ∃ tree, Derives conditionalOfReduce 2 1 tokens tree := by
  simp only [parseExpr, bind, Except.bind] at accepted
  split at accepted
  · cases accepted
  · rename_i state read
    obtain ⟨wantValue, parser⟩ := state
    have initially : Between [] true (Parser.initial part) := Wants.eof
    have between := between_run initially read
    simp only [parseEnd, bind, Except.bind, reduce, reduceCtorEq, if_false] at accepted
    split at accepted
    · cases accepted
    · rename_i checked
      split at accepted
      · cases accepted
      · rename_i reduced reduces
        cases wantValue with
        | true =>
          exact absurd reduces (reduceLoop_eof_open (openParen_of_wanted checked))
        | false =>
          obtain ⟨isClose, -⟩ | ⟨-, low, level, -, has⟩ :=
            reduceLoop_has between (by decide) reduces
          · cases isClose
          · obtain ⟨rest, stack⟩ := has.ops_eq
            rw [stack] at has
            obtain ⟨before, operand, tree, shape, wants, fits, derives⟩ := has
            have lowest : reduced.topOp.prio = 0 := topPrio_eq reduced ▸ Nat.le_zero.mp low
            obtain ⟨isEof, rfl⟩ := wants.eof_of_prio lowest
            simp only [List.nil_append] at shape
            subst shape
            rw [List.headD_cons, isEof] at fits
            exact ⟨tree, derives.lower fits⟩

theorem parseExpr_eq_ok_iff {tokens : List (Token part)} {final : Parser part} :
    parseExpr precision tokens = .ok final ↔
      ∃ tree outcome, Derives conditionalOfReduce 2 1 tokens tree ∧
        tree.run precision 0 = some outcome ∧ final = (Parser.initial part).settle outcome := by
  constructor
  · intro accepted
    obtain ⟨tree, derives⟩ := derives_of_parseExpr accepted
    cases run : tree.run precision 0 with
    | none =>
      rw [parseExpr_of_diverges derives run] at accepted
      cases accepted
    | some outcome =>
      rw [parseExpr_of_derives derives run] at accepted
      cases accepted
      exact ⟨tree, outcome, derives, run, rfl⟩
  · rintro ⟨tree, outcome, derives, run, rfl⟩
    exact parseExpr_of_derives derives run

end Acceptance

end GccCil.Libcpp
