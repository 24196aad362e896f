import GccCil.Cil.BodyBounds

/-!
# The switch instruction of the gcc/cil front end

`parse_instr_arg` lists the numbers of the table entries with the names of their
labels, and `make_instr_switch` makes a `SWITCH_EXPR` of the list.  With
assertions the first number already stops the compiler.  Without them the loop
ends after one case, since its body assigns the variable it walks with, and the
vector of cases becomes the body of the statement.
-/

namespace GccCil.Cil.BodyScan

section

variable {Node : Type} {w : Nat}

/-- The condition, `SWITCH_COND`. -/
def Stmt.switchCond : Stmt Node → Option Node
  | .switchExpr _ cond _ _ => cond
  | _ => none

/-- The cases in the vector `SWITCH_LABELS`. -/
def Stmt.switchCases : Stmt Node → List CaseLabelExpr
  | .switchExpr _ _ _ (some labels) => labels.filterMap id
  | _ => []

/-- The label to which the selector value `value` goes; `none` falls through. -/
def Stmt.caseLabel (stmt : Stmt Node) (value : Nat) : Option LabelDecl :=
  (stmt.switchCases.find? fun tree => tree.low.value = value).map CaseLabelExpr.label

/-- The target of entry `item` by the standard: its displacement is signed. -/
def switchTarget (code : Bytes) (offset : BitVec w) (item : Nat) : BitVec w :=
  offset + 5 + BitVec.ofNat w (switchCount code) * 4 +
    (ilReadUint32 (code.advance (5 + item * 4))).signExtend w

/-- The instruction becomes a `SWITCH_EXPR` on the selector with one case for
each target, and other selector values fall through. -/
def SwitchTranslated (frontEnd : FrontEnd Node) (code : Bytes) (offset : BitVec w)
    (state : ParseState Node) : Prop :=
  ∃ labelNames after stmt,
    parseInstrArg code .switch offset = some (.labelNames labelNames) ∧
    makeInstrSwitch frontEnd labelNames state = some after ∧
    after.body = state.body ++ [stmt] ∧
    (∃ selector, stackPop frontEnd.toUint32 state = some (stmt.switchCond, selector)) ∧
    stmt.switchCases.length = switchCount code ∧
    (∀ item < switchCount code,
      stmt.caseLabel item = after.labelDecl (getLabelName (switchTarget code offset item)) ∧
        (stmt.caseLabel item).isSome) ∧
    ∀ value, switchCount code ≤ value → stmt.caseLabel value = none

variable {frontEnd : FrontEnd Node}

theorem fillCases_treeList {fuel index uid uidAfter : Nat} {value : IntegerCst}
    {name : Identifier} {chain : Chain} {cases casesAfter : List (Option CaseLabelExpr)}
    (filled : fillCases frontEnd (fuel + 2) (.treeList value name chain) index cases uid =
      some (casesAfter, uidAfter)) :
    casesAfter = cases.set index (some ⟨value, ⟨uid, none⟩⟩) ∧ uidAfter = uid + 1 := by
  rw [fillCases] at filled
  dsimp only at filled
  split at filled
  · cases filled
  · simp only [Chain.treeChain, fillCases, Option.some.injEq, Prod.mk.injEq] at filled
    exact ⟨filled.1.symm, filled.2.symm⟩

theorem stackPop_frame {convertItem : Node → Option Node} {state after : ParseState Node}
    {node : Option Node} (pop : stackPop convertItem state = some (node, after)) :
    after.body = state.body ∧ after.labelDecl = state.labelDecl ∧ after.uid = state.uid := by
  unfold stackPop at pop
  split at pop
  · cases pop
    exact ⟨rfl, rfl, rfl⟩
  · cases pop
    exact ⟨rfl, rfl, rfl⟩
  · obtain ⟨node, _, equal⟩ := Option.map_eq_some_iff.mp pop
    cases equal
    exact ⟨rfl, rfl, rfl⟩

/-- `make_instr_switch` stops the compiler, or it builds a statement that has
no condition, the first case under a label without a name as its body, and no
labels. -/
theorem makeInstrSwitch_eq_some {value : IntegerCst} {name : Identifier} {chain : Chain}
    {state after : ParseState Node}
    (made : makeInstrSwitch frontEnd (.treeList value name chain) state = some after) :
    frontEnd.assertChecking = false ∧
      ∃ selector, after.body = state.body ++
        [.switchExpr selector none
          (some (some ⟨value, ⟨state.uid, none⟩⟩ :: List.replicate (chain.listLength + 1) none))
          none] := by
  simp only [makeInstrSwitch, Option.bind_eq_bind, Option.bind_eq_some_iff, Prod.exists] at made
  obtain ⟨selector, popped, pop, cases, uid, filled, built⟩ := made
  obtain ⟨body, _, sameUid⟩ := stackPop_frame pop
  obtain ⟨casesEq, _⟩ := fillCases_treeList filled
  split at built
  · cases built
  · rename_i release
    cases built
    refine ⟨by simpa using release, selector, ?_⟩
    rw [appendStmt, body, casesEq, sameUid, Chain.listLength, List.replicate_succ,
      List.set_cons_zero]

theorem parseInstrArg_switch {code : Bytes} (offset : BitVec w) (targets : 1 ≤ switchCount code) :
    ∃ name chain, parseInstrArg code .switch offset =
      some (.labelNames (.treeList ⟨.integerTypeNode, 0⟩ name chain)) := by
  obtain ⟨count, equal⟩ := Nat.exists_eq_add_of_le' targets
  unfold switchCount at equal
  simp only [parseInstrArg, equal, List.range_succ_eq_map, List.map_cons, Chain.ofList]
  exact ⟨_, _, rfl⟩

theorem switchCases_eq_nil {code : Bytes} {offset : BitVec w} {labelNames : Chain}
    {state after : ParseState Node} {stmt : Stmt Node} (targets : 1 ≤ switchCount code)
    (parsed : parseInstrArg code .switch offset = some (.labelNames labelNames))
    (made : makeInstrSwitch frontEnd labelNames state = some after)
    (body : after.body = state.body ++ [stmt]) : stmt.switchCases = [] := by
  obtain ⟨name, chain, list⟩ := parseInstrArg_switch offset targets
  rw [list] at parsed
  cases parsed
  obtain ⟨_, selector, built⟩ := makeInstrSwitch_eq_some made
  rw [body, List.append_cancel_left_eq, List.singleton_inj] at built
  rw [built]
  rfl

/-- No switch instruction with at least one target is translated as the
standard has it, with assertions or without. -/
theorem switch_not_translated (frontEnd : FrontEnd Node) (code : Bytes) (offset : BitVec w)
    (state : ParseState Node) (targets : 1 ≤ switchCount code) :
    ¬ SwitchTranslated frontEnd code offset state := by
  rintro ⟨labelNames, after, stmt, parsed, made, body, _, count, _⟩
  rw [switchCases_eq_nil targets parsed made body, List.length_nil] at count
  omega

end

def oneTarget : Bytes := .ofList [0x45, 1, 0, 0, 0, 0, 0, 0, 0]

/-- Without assertions the switch with one target has no case at all. -/
theorem oneTarget_not_translated :
    ¬ SwitchTranslated { ecmaFrontEnd with assertChecking := false } oneTarget (0 : BitVec 64)
      ⟨[some ()], [], fun _ => none, [], 0⟩ := by
  rintro ⟨labelNames, after, stmt, parsed, made, body, _, count, _⟩
  rw [switchCases_eq_nil (by decide) parsed made body] at count
  exact absurd count (by decide)

/-- With assertions the compiler stops at it. -/
theorem oneTarget_not_translated_checked :
    ¬ SwitchTranslated ecmaFrontEnd oneTarget (0 : BitVec 64)
      ⟨[some ()], [], fun _ => none, [], 0⟩ :=
  switch_not_translated _ _ _ _ (by decide)

end GccCil.Cil.BodyScan
