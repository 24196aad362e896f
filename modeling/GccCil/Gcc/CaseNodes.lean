import Mathlib.Data.Tree.Basic
import GccCil.Lib.TwosComplement
import GccCil.Lib.LinkedList
import GccCil.Lib.JumpCode

/-!
# Switch statements as decision trees

The part of `stmt.c` that expands a switch statement into comparisons and
jumps: the cost table, `balance_case_nodes`, the bound predicates and
`emit_case_nodes`.  The nodes live in a heap of addresses, where the list of
cases and the tree share the `right` links.  A step that reads outside the cost
table or through a null pointer is `none`, and so is running out of fuel.
-/

namespace GccCil.Gcc.Switch

open GccCil.Lib

variable {α Label : Type}

/-- `struct case_node`; the bounds are integer constants of the index type. -/
structure CaseNode (α Label : Type) where
  left : Option α
  right : Option α
  parent : Option α
  low : Int
  high : Int
  codeLabel : Label

abbrev Nodes (α Label : Type) : Type := α → CaseNode α Label

structure IndexType where
  unsigned : Bool
  precision : Nat
  minValue : Int
  maxValue : Int
  minFits : InRange unsigned precision minValue
  maxFits : InRange unsigned precision maxValue
  deriving DecidableEq

/-- The addresses met from a pointer on, if there are at most `fuel`. -/
def follow (next : α → Option α) : Nat → Option α → Option (List α)
  | _, none => some []
  | 0, some _ => none
  | fuel + 1, some node => (follow next fuel (next node)).map (node :: ·)

def isAlnum (c : Nat) : Prop := (48 ≤ c ∧ c ≤ 57) ∨ (65 ≤ c ∧ c ≤ 90) ∨ (97 ≤ c ∧ c ≤ 122)

def isPunct (c : Nat) : Prop := 33 ≤ c ∧ c ≤ 126 ∧ ¬ isAlnum c

def isCntrl (c : Nat) : Prop := c ≤ 31 ∨ c = 127

instance (c : Nat) : Decidable (isAlnum c) := by unfold isAlnum; infer_instance
instance (c : Nat) : Decidable (isPunct c) := by unfold isPunct; infer_instance
instance (c : Nat) : Decidable (isCntrl c) := by unfold isCntrl; infer_instance

def charCost (c : Nat) : Int :=
  if c = 32 then 8          -- ' '
  else if c = 9 then 4      -- '\t'
  else if c = 0 then 4      -- '\0'
  else if c = 10 then 2     -- '\n'
  else if c = 12 ∨ c = 11 ∨ c = 8 then 1   -- '\f', '\v', '\b'
  else if isAlnum c then 16
  else if isPunct c then 8
  else if isCntrl c then -1
  else 0

/-- `cost_table_`: 129 entries, the first for the character -1. -/
def costTableEntry (index : Nat) : Option Int :=
  if index = 0 then some 0 else if index ≤ 128 then some (charCost (index - 1)) else none

section Costs

-- the bits of a `HOST_WIDE_INT`, of which a constant has two
variable (hostBits : Nat)

/-- `COST_TABLE (I)`. -/
def costTable (i : Int) : Option Int := costTableEntry ((i + 1) % (2 ^ hostBits : Nat)).toNat

def treeIntCstLow (value : Int) : Int := value % (2 ^ hostBits : Nat)

/-- `INT_CST_LT`, which reads both constants as signed. -/
def intCstLt (a b : Int) : Prop := wrap false (2 * hostBits) a < wrap false (2 * hostBits) b

instance (a b : Int) : Decidable (intCstLt hostBits a b) := by unfold intCstLt; infer_instance

/-- The loop over the characters of a case, for an `int` index. -/
def scanCosts (last : Int) : Nat → Int → Option Bool
  | 0, _ => none
  | fuel + 1, i =>
    if last < i then some true
    else (costTable hostBits i).bind fun cost =>
      if cost < 0 then some false else scanCosts last fuel (i + 1)

/-- `estimate_case_costs` behind the initialization of the table.  No loop over
the characters of a case stays inside the table for more than 129 steps. -/
def estimateCaseCosts : List (CaseNode α Label) → Option Bool
  | [] => some true
  | node :: rest =>
    if intCstLt hostBits node.low (-1) ∨ intCstLt hostBits 127 node.high then some false
    else (scanCosts hostBits (wrap false hostBits node.high) 130
        (wrap false 32 (wrap false hostBits node.low))).bind fun suitable =>
      if suitable then estimateCaseCosts rest else some false

def nodeCost (node : CaseNode α Label) : Option Int :=
  if node.low = node.high then costTable hostBits (treeIntCstLow hostBits node.low)
  else (costTable hostBits (treeIntCstLow hostBits node.high)).bind fun high =>
    (costTable hostBits (treeIntCstLow hostBits node.low)).map fun low => high + low

def totalCost : List (CaseNode α Label) → Option Int
  | [] => some 0
  | node :: rest =>
    (nodeCost hostBits node).bind fun cost => (totalCost rest).map fun costs => cost + costs

end Costs

/-- Skip nodes while their weight does not reach the amount.  The result is the
number of nodes skipped. -/
def skipNodes (weight : CaseNode α Label → Option Int) :
    Int → List (CaseNode α Label) → Option Nat
  | _, [] => none
  | amount, node :: rest => (weight node).bind fun cost =>
    if amount - cost ≤ 0 then some 0
    else (skipNodes weight (amount - cost) rest).map (· + 1)

def rangeWeight (node : CaseNode α Label) : Int := if node.low = node.high then 1 else 2

def pivotIndex (hostBits : Nat) (useCostTable : Bool) (list : List (CaseNode α Label)) :
    Option Nat :=
  if useCostTable then
    (totalCost hostBits list).bind fun cost =>
      skipNodes (nodeCost hostBits) ((cost + 1).tdiv 2) list
  else if list.length = 3 then some 1
  else
    let ranges := list.countP fun node => node.low ≠ node.high
    skipNodes (fun node => some (rangeWeight node)) ((list.length + ranges + 1) / 2 : Nat) list

section Balance

variable [DecidableEq α]

/-- Fill in the `parent` fields of a list, `parent` being that of its head. -/
def fillParents (nodes : Nodes α Label) : Option α → List α → Nodes α Label
  | _, [] => nodes
  | parent, node :: rest =>
    fillParents (Function.update nodes node { nodes node with parent := parent }) (some node) rest

def setLeft (nodes : Nodes α Label) (node : α) (left : Option α) : Nodes α Label :=
  Function.update nodes node { nodes node with left := left }

def setRight (nodes : Nodes α Label) (node : α) (right : Option α) : Nodes α Label :=
  Function.update nodes node { nodes node with right := right }

def setParent (nodes : Nodes α Label) (node : α) (parent : Option α) : Nodes α Label :=
  Function.update nodes node { nodes node with parent := parent }

/-- `balance_case_nodes`.  The result is the new value of `*head`. -/
def balanceCaseNodes (hostBits : Nat) (useCostTable : Bool) :
    Nat → Nodes α Label → Option α → Option α → Option (Nodes α Label × Option α)
  | 0, _, _, _ => none
  | _ + 1, nodes, none, _ => some (nodes, none)
  | fuel + 1, nodes, some head, parent => do
      let entries ← follow (fun node => (nodes node).right) fuel (some head)
      -- the costs are added up for short lists too
      if useCostTable && (totalCost hostBits (entries.map nodes)).isNone then none
      else if entries.length ≤ 2 then some (fillParents nodes parent entries, some head)
      else do
        let moved ← pivotIndex hostBits useCostTable (entries.map nodes)
        if moved = 0 ∧ useCostTable = true then do
          -- leave this branch lopsided
          let nodes := setParent nodes head parent
          let (nodes, left) ← balanceCaseNodes hostBits useCostTable fuel nodes (nodes head).left
            (some head)
          some (fillParents (setLeft nodes head left) (some head) entries.tail, some head)
        else do
          -- `npp` is the `right` field of the node before the pivot
          let before ← (if moved = 0 then none else entries[moved - 1]?)
          let np ← entries[moved]?
          let nodes := setRight nodes before none
          let nodes := setLeft (setParent nodes np parent) np (some head)
          let (nodes, left) ← balanceCaseNodes hostBits useCostTable fuel nodes (nodes np).left
            (some np)
          let nodes := setLeft nodes np left
          let (nodes, right) ← balanceCaseNodes hostBits useCostTable fuel nodes (nodes np).right
            (some np)
          some (setRight nodes np right, some np)

end Balance

section Bounds

variable (type : IndexType) (nodes : Nodes α Label) (limit : Nat)

def nodeHasLowBound (node : α) : Option Bool :=
  if (nodes node).low = type.minValue then some true
  else if (nodes node).left.isSome then some false
  else
    let lowMinusOne := wrap type.unsigned type.precision ((nodes node).low - 1)
    if ¬ lowMinusOne < (nodes node).low then some false
    else (follow (fun pnode => (nodes pnode).parent) limit (nodes node).parent).map fun parents =>
      parents.any fun pnode => lowMinusOne = (nodes pnode).high

def nodeHasHighBound (node : α) : Option Bool :=
  if (nodes node).high = type.maxValue then some true
  else if (nodes node).right.isSome then some false
  else
    let highPlusOne := wrap type.unsigned type.precision ((nodes node).high + 1)
    if ¬ (nodes node).high < highPlusOne then some false
    else (follow (fun pnode => (nodes pnode).parent) limit (nodes node).parent).map fun parents =>
      parents.any fun pnode => highPlusOne = (nodes pnode).low

def nodeIsBounded (node : α) : Option Bool :=
  (nodeHasLowBound type nodes limit node).bind fun low =>
    if low then nodeHasHighBound type nodes limit node else some false

end Bounds

inductive Comparison where
  | eq | gt | lt | ge | le
  deriving DecidableEq, Repr

def Comparison.holds {w : Nat} (unsignedp : Bool) (x y : BitVec w) : Comparison → Bool
  | .eq => x == y
  | .gt => if unsignedp then y.ult x else y.slt x
  | .lt => if unsignedp then x.ult y else x.slt y
  | .ge => if unsignedp then y.ule x else y.sle x
  | .le => if unsignedp then x.ule y else x.sle y

/-- The condition of a jump: the index is compared with a constant, or the index
less a constant is above another, both unsigned. -/
inductive Test (w : Nat) where
  | compare (comparison : Comparison) (value : BitVec w)
  | above (low span : BitVec w)
  deriving DecidableEq, Repr

def Test.holds {w : Nat} (unsignedp : Bool) : Test w → BitVec w → Bool
  | .compare comparison value, index => comparison.holds unsignedp index value
  | .above low span, index => span.ult (index - low)

open JumpCode JumpCode.Emitter

section Emit

-- `w` is the width of the index register
variable (w : Nat) (type : IndexType) (nodes : Nodes α Label) (default : Label) (limit : Nat)

/-- `emit_cmp_and_jump_insns` for the index and a constant. -/
def emitCmpAndJump (comparison : Comparison) (value : Int) (label : Label) :
    Emitter (Test w) Label :=
  emit (.jumpIf (.compare comparison (BitVec.ofInt w value)) (.code label))

def emitJump (label : Label) : Emitter (Test w) Label := emit (.jump (.code label))

/-- Neither side of a node is bounded: distinguish the two sides, then emit the
code for one side at a time. -/
def emitBothSides (value : Int) (left right : Emitter (Test w) Label) : Emitter (Test w) Label :=
  withTestLabel fun testLabel =>
    emit (.jumpIf (.compare .gt (BitVec.ofInt w value)) (.test testLabel)) ++
      (left ++ (emitJump w default ++ (emit (.label testLabel) ++ right)))

def isSingleLeaf (node : α) : Prop :=
  (nodes node).low = (nodes node).high ∧ (nodes node).left = none ∧ (nodes node).right = none

instance (node : α) : Decidable (isSingleLeaf nodes node) := by
  unfold isSingleLeaf
  infer_instance

def emitRange (node : α) : Emitter (Test w) Label :=
  let low := BitVec.ofInt w (nodes node).low
  let high := BitVec.ofInt w (nodes node).high
  choose (nodeHasHighBound type nodes limit node)
    (choose (nodeHasLowBound type nodes limit node) nothing
      (emitCmpAndJump w .lt (nodes node).low default))
    (choose (nodeHasLowBound type nodes limit node)
      (emitCmpAndJump w .gt (nodes node).high default)
      (emit (.jumpIf (.above low (high - low)) (.code default)))) ++
    emitJump w (nodes node).codeLabel

def emitCaseNodes : Nat → α → Emitter (Test w) Label
  | 0, _ => fun _ => none
  | fuel + 1, node =>
    choose (nodeIsBounded type nodes limit node) (emitJump w (nodes node).codeLabel) <|
    if (nodes node).low = (nodes node).high then
      emitCmpAndJump w .eq (nodes node).low (nodes node).codeLabel ++
      match (nodes node).left, (nodes node).right with
      | some left, some right =>
        choose (nodeIsBounded type nodes limit right)
          (emitCmpAndJump w .gt (nodes node).high (nodes right).codeLabel ++
            emitCaseNodes fuel left)
        (choose (nodeIsBounded type nodes limit left)
          (emitCmpAndJump w .lt (nodes node).high (nodes left).codeLabel ++
            emitCaseNodes fuel right)
        (if isSingleLeaf nodes right ∧ isSingleLeaf nodes left then
          emitCmpAndJump w .eq (nodes right).low (nodes right).codeLabel ++
            emitCmpAndJump w .eq (nodes left).low (nodes left).codeLabel
        else
          emitBothSides w default (nodes node).high (emitCaseNodes fuel left)
            (emitCaseNodes fuel right)))
      | none, some right =>
        if isSingleLeaf nodes right then
          emitCmpAndJump w .eq (nodes right).low (nodes right).codeLabel
        else
          choose (nodeHasLowBound type nodes limit node) nothing
            (emitCmpAndJump w .lt (nodes node).high default) ++
          emitCaseNodes fuel right
      | some left, none =>
        if isSingleLeaf nodes left then
          emitCmpAndJump w .eq (nodes left).low (nodes left).codeLabel
        else
          choose (nodeHasHighBound type nodes limit node) nothing
            (emitCmpAndJump w .gt (nodes node).high default) ++
          emitCaseNodes fuel left
      | none, none => nothing
    else
      match (nodes node).left, (nodes node).right with
      | some left, some right =>
        choose (nodeIsBounded type nodes limit right)
          (emitCmpAndJump w .gt (nodes node).high (nodes right).codeLabel ++
            (emitCmpAndJump w .ge (nodes node).low (nodes node).codeLabel ++
              emitCaseNodes fuel left))
          (emitBothSides w default (nodes node).high
            (emitCmpAndJump w .ge (nodes node).low (nodes node).codeLabel ++
              emitCaseNodes fuel left)
            (emitCaseNodes fuel right))
      | none, some right =>
        choose (nodeHasLowBound type nodes limit node) nothing
            (emitCmpAndJump w .lt (nodes node).low default) ++
          (emitCmpAndJump w .le (nodes node).high (nodes node).codeLabel ++
            emitCaseNodes fuel right)
      | some left, none =>
        choose (nodeHasHighBound type nodes limit node) nothing
            (emitCmpAndJump w .gt (nodes node).high default) ++
          (emitCmpAndJump w .ge (nodes node).low (nodes node).codeLabel ++
            emitCaseNodes fuel left)
      | none, none => emitRange w type nodes default limit node

end Emit

/-- The decision tree of `expand_case`: the test for an empty list, the costs,
the balanced tree, its code, and the jump to the default label. -/
def expandDecisionTree [DecidableEq α] (hostBits w : Nat) (type : IndexType) (enumeral : Bool)
    (fuel : Nat) (nodes : Nodes α Label) (caseList : Option α) (defaultLabel : Label) :
    Option (Nodes α Label × Option α × List (Insn (Test w) Label)) := do
  let entries ← follow (fun node => (nodes node).right) fuel caseList
  let useCostTable ← (if enumeral then some false
    else estimateCaseCosts hostBits (entries.map nodes))
  let (nodes, root) ← balanceCaseNodes hostBits useCostTable (fuel + 1) nodes caseList none
  match root with
  | none => some (nodes, none, [.jump (.code defaultLabel)])
  | some node =>
    let code ← (emitCaseNodes w type nodes defaultLabel fuel fuel node ++
      emitJump w defaultLabel) 0
    some (nodes, root, code.1)

end GccCil.Gcc.Switch
