import GccCil.Libcpp.Grammar

/-!
# The conditional of C and the conditional of `optab`

The two grammars differ in the operands of `?:` only.  What the priorities of
`?` and `:` amount to is a part of C, but not all of it, and a conditional that
is the third operand of another one gets another tree.
-/

namespace GccCil.Libcpp

variable {part : Nat}

def Tree.isComma : Tree part → Bool
  | .binary _ op _ _ => op == .comma
  | _ => false

def Tree.isConditional : Tree part → Bool
  | .conditional _ _ _ => true
  | _ => false

/-- No comma stands unparenthesized between `?` and `:`, and no conditional
after a `:`. -/
def Tree.delimited : Tree part → Bool
  | .value _ => true
  | .paren inner => inner.delimited
  | .unary _ _ operand => operand.delimited
  | .binary _ _ left right => left.delimited && right.delimited
  | .conditional condition first second =>
    condition.delimited && first.delimited && second.delimited &&
      !first.isComma && !second.isConditional

theorem eq_comma_of_low {op : Op} (isBinary : op.isBinary = true) (low : op.prio < 5) :
    op = .comma := by
  revert isBinary low
  cases op <;> decide

theorem Derives.level_succ {levels : ConditionalLevels} {level start : Nat}
    {tokens : List (Token part)} {tree : Tree part}
    (derives : Derives levels level start tokens tree) (low : level < 5)
    (notComma : level = 2 → tree.isComma = false)
    (notConditional : level = 4 → tree.isConditional = false) :
    Derives levels (level + 1) start tokens tree := by
  cases derives with
  | value => omega
  | paren inner => omega
  | unary written operand => omega
  | conditional condition first second => cases notConditional rfl
  | lift higher => exact higher
  | binary isBinary left right =>
    obtain rfl := eq_comma_of_low isBinary low
    cases notComma rfl

theorem Derives.middle {start : Nat} {tokens : List (Token part)} {tree : Tree part}
    (derives : Derives conditionalOfReduce 2 start tokens tree) (notComma : tree.isComma = false) :
    Derives conditionalOfReduce 4 start tokens tree := by
  have three : Derives conditionalOfReduce 3 start tokens tree :=
    derives.level_succ (by decide) (fun _ => notComma) nofun
  exact three.level_succ (by decide) nofun nofun

theorem Derives.of_delimited {level start : Nat} {tokens : List (Token part)} {tree : Tree part}
    (derives : Derives conditionalOfC level start tokens tree) (delimited : tree.delimited = true) :
    Derives conditionalOfReduce level start tokens tree := by
  induction derives with
  | value start num => exact Derives.value start num
  | paren inner ih => exact Derives.paren (ih delimited)
  | unary written operand ih => exact Derives.unary written (ih delimited)
  | binary isBinary left right leftIh rightIh =>
    simp only [Tree.delimited, Bool.and_eq_true] at delimited
    exact Derives.binary isBinary (leftIh delimited.1) (rightIh delimited.2)
  | lift higher ih => exact (ih delimited).lift
  | conditional condition first second conditionIh firstIh secondIh =>
    simp only [Tree.delimited, Bool.and_eq_true, Bool.not_eq_true'] at delimited
    obtain ⟨⟨⟨⟨conditionOk, firstOk⟩, secondOk⟩, notComma⟩, notConditional⟩ := delimited
    exact Derives.conditional ((conditionIh conditionOk).lower (by decide))
      ((firstIh firstOk).middle notComma)
      ((secondIh secondOk).level_succ (by decide) nofun (fun _ => notConditional))

theorem Derives.extend {level start : Nat} {condition first second : List (Token part)}
    {conditionTree firstTree secondTree : Tree part}
    (conditionDerives : Derives conditionalOfC level start condition conditionTree)
    (isConditional : level = 4)
    (firstDerives : Derives conditionalOfC 2 (start + condition.length + 1) first firstTree)
    (secondDerives : Derives conditionalOfC 4
      (start + condition.length + 1 + first.length + 1) second secondTree) :
    ∃ tree, Derives conditionalOfC 4 start
      (condition ++ .operator .query :: (first ++ .operator .colon :: second)) tree := by
  induction conditionDerives with
  | value => cases isConditional
  | paren inner => cases isConditional
  | unary written operand => cases isConditional
  | @binary _ op _ _ _ _ isBinary left right =>
    exfalso
    revert isBinary isConditional
    cases op <;> decide
  | lift higher =>
    cases isConditional
    exact ⟨_, Derives.conditional higher firstDerives secondDerives⟩
  | @conditional start outer middle last outerTree middleTree lastTree outerDerives middleDerives
      lastDerives outerIh middleIh lastIh =>
      simp only [List.length_append, List.length_cons] at firstDerives secondDerives
      have shift : ∀ position, start + outer.length + 1 + middle.length + 1 + last.length + position
          = start + (outer.length + (middle.length + (last.length + 1) + 1)) + position := by
        intro position
        omega
      obtain ⟨tree, extended⟩ := lastIh rfl (by rw [shift]; exact firstDerives)
        (by rw [shift]; exact secondDerives)
      refine ⟨.conditional outerTree middleTree tree, ?_⟩
      have whole := Derives.conditional outerDerives middleDerives extended
      simpa [List.append_assoc] using whole

theorem Derives.inC {level start : Nat} {tokens : List (Token part)} {tree : Tree part}
    (derives : Derives conditionalOfReduce level start tokens tree) :
    ∃ treeOfC, Derives conditionalOfC level start tokens treeOfC := by
  induction derives with
  | value start num => exact ⟨_, Derives.value start num⟩
  | paren inner ih =>
    obtain ⟨innerTree, inner⟩ := ih
    exact ⟨_, Derives.paren inner⟩
  | unary written operand ih =>
    obtain ⟨operandTree, operand⟩ := ih
    exact ⟨_, Derives.unary written operand⟩
  | binary isBinary left right leftIh rightIh =>
    obtain ⟨leftTree, left⟩ := leftIh
    obtain ⟨rightTree, right⟩ := rightIh
    exact ⟨_, Derives.binary isBinary left right⟩
  | lift higher ih =>
    obtain ⟨higherTree, higher⟩ := ih
    exact ⟨_, higher.lift⟩
  | conditional condition first second conditionIh firstIh secondIh =>
    obtain ⟨conditionTree, condition⟩ := conditionIh
    obtain ⟨firstTree, first⟩ := firstIh
    obtain ⟨secondTree, second⟩ := secondIh
    exact condition.extend rfl (first.lower (by decide)) (second.lower (by decide))

end GccCil.Libcpp
