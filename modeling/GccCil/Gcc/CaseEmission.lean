import GccCil.Gcc.CaseBalance

/-!
# The code of a decision tree

`emit_case_nodes` leaves out the tests that the ancestors of a node have made.
The index that reaches a node is on the same side of every ancestor as the node
is; this is kept by every jump to a child, and it makes the tests that
`node_has_low_bound` and `node_has_high_bound` drop redundant.
-/

namespace GccCil.Gcc.Switch

open GccCil.Lib GccCil.Lib.LinkedTree GccCil.Lib.JumpCode GccCil.Lib.JumpCode.Emitter

variable {α Label : Type}

def classify (nodes : Nodes α Label) (default : Label) (list : List α) (value : Int) : Label :=
  match list.find? fun x => (nodes x).low ≤ value ∧ value ≤ (nodes x).high with
  | some x => (nodes x).codeLabel
  | none => default

def IndexType.Contains (type : IndexType) (value : Int) : Prop :=
  type.minValue ≤ value ∧ value ≤ type.maxValue

structure OrderedCases (type : IndexType) (nodes : Nodes α Label) (list : List α) : Prop where
  ordered : list.Pairwise fun x y => (nodes x).high < (nodes y).low
  nonempty : ∀ x ∈ list, (nodes x).low ≤ (nodes x).high
  lowest : ∀ x ∈ list, type.minValue ≤ (nodes x).low
  highest : ∀ x ∈ list, (nodes x).high ≤ type.maxValue

section Classify

variable {type : IndexType} {nodes : Nodes α Label} {default : Label}

theorem OrderedCases.sublist {list part : List α} (cases : OrderedCases type nodes list)
    (sublist : part.Sublist list) : OrderedCases type nodes part where
  ordered := cases.ordered.sublist sublist
  nonempty := fun x member => cases.nonempty x (sublist.subset member)
  lowest := fun x member => cases.lowest x (sublist.subset member)
  highest := fun x member => cases.highest x (sublist.subset member)

theorem classify_none {list : List α} {value : Int}
    (outside : ∀ x ∈ list, value < (nodes x).low ∨ (nodes x).high < value) :
    classify nodes default list value = default := by
  have missing : (list.find? fun x => (nodes x).low ≤ value ∧ value ≤ (nodes x).high) = none := by
    rw [List.find?_eq_none]
    intro x member contains
    have out := outside x member
    have inside := of_decide_eq_true contains
    omega
  rw [classify, missing]

theorem classify_append_left {first second : List α} {value : Int}
    (outside : ∀ x ∈ second, value < (nodes x).low ∨ (nodes x).high < value) :
    classify nodes default (first ++ second) value = classify nodes default first value := by
  have missing : (second.find? fun x => (nodes x).low ≤ value ∧ value ≤ (nodes x).high) = none := by
    rw [List.find?_eq_none]
    intro x member contains
    have out := outside x member
    have inside := of_decide_eq_true contains
    omega
  rw [classify, List.find?_append, missing, Option.or_none, classify]

theorem classify_append_right {first second : List α} {value : Int}
    (outside : ∀ x ∈ first, value < (nodes x).low ∨ (nodes x).high < value) :
    classify nodes default (first ++ second) value = classify nodes default second value := by
  have missing : (first.find? fun x => (nodes x).low ≤ value ∧ value ≤ (nodes x).high) = none := by
    rw [List.find?_eq_none]
    intro x member contains
    have out := outside x member
    have inside := of_decide_eq_true contains
    omega
  rw [classify, List.find?_append, missing, Option.none_or, classify]

variable {l r : BinaryTree α} {x : α} {value : Int}

theorem OrderedCases.before (cases : OrderedCases type nodes (inorder (.node x l r))) :
    ∀ y ∈ inorder l, (nodes y).high < (nodes x).low := by
  intro y member
  exact (List.pairwise_append.mp cases.ordered).2.2 y member x List.mem_cons_self

theorem OrderedCases.after (cases : OrderedCases type nodes (inorder (.node x l r))) :
    ∀ y ∈ inorder r, (nodes x).high < (nodes y).low :=
  (List.pairwise_cons.mp (List.pairwise_append.mp cases.ordered).2.1).1

theorem OrderedCases.left (cases : OrderedCases type nodes (inorder (.node x l r))) :
    OrderedCases type nodes (inorder l) := cases.sublist (List.sublist_append_left _ _)

theorem OrderedCases.right (cases : OrderedCases type nodes (inorder (.node x l r))) :
    OrderedCases type nodes (inorder r) :=
  cases.sublist ((List.sublist_cons_self _ _).trans (List.sublist_append_right _ _))

theorem OrderedCases.low_le_high (cases : OrderedCases type nodes (inorder (.node x l r))) :
    (nodes x).low ≤ (nodes x).high := cases.nonempty x (by simp)

theorem classify_inside (cases : OrderedCases type nodes (inorder (.node x l r)))
    (low : (nodes x).low ≤ value) (high : value ≤ (nodes x).high) :
    classify nodes default (inorder (.node x l r)) value = (nodes x).codeLabel := by
  rw [inorder_node, classify_append_right fun y member => .inr ((cases.before y member).trans_le low),
    classify, List.find?_cons_of_pos (by simp [low, high])]

theorem classify_below (cases : OrderedCases type nodes (inorder (.node x l r)))
    (below : value < (nodes x).low) :
    classify nodes default (inorder (.node x l r)) value =
      classify nodes default (inorder l) value := by
  have up := cases.low_le_high
  apply classify_append_left
  intro y member
  rcases List.mem_cons.mp member with rfl | member
  · exact .inl below
  · exact .inl (by linarith [cases.after y member])

theorem classify_above (cases : OrderedCases type nodes (inorder (.node x l r)))
    (above : (nodes x).high < value) :
    classify nodes default (inorder (.node x l r)) value =
      classify nodes default (inorder r) value := by
  have up := cases.low_le_high
  have regroup : inorder (.node x l r) = (inorder l ++ [x]) ++ inorder r := by simp
  rw [regroup]
  apply classify_append_right
  intro y member
  rcases List.mem_append.mp member with member | member
  · exact .inr (by linarith [cases.before y member])
  · rw [List.mem_singleton.mp member]
    exact .inr above

end Classify

section SameSide

variable {type : IndexType} {nodes : Nodes α Label}

def SameSide (nodes : Nodes α Label) (ancestors list : List α) (value : Int) : Prop :=
  ∀ pnode ∈ ancestors, (nodes pnode).low ≤ (nodes pnode).high ∧
    (((nodes pnode).high < value ∧ ∀ y ∈ list, (nodes pnode).high < (nodes y).low) ∨
      (value < (nodes pnode).low ∧ ∀ y ∈ list, (nodes y).high < (nodes pnode).low))

def Reaches (type : IndexType) (nodes : Nodes α Label) (ancestors list : List α) (value : Int) :
    Prop :=
  type.Contains value ∧ SameSide nodes ancestors list value

variable {ancestors : List α} {l r : BinaryTree α} {x : α} {value : Int}

theorem Reaches.left (cases : OrderedCases type nodes (inorder (.node x l r)))
    (reaches : Reaches type nodes ancestors (inorder (.node x l r)) value)
    (below : value < (nodes x).low) : Reaches type nodes (x :: ancestors) (inorder l) value := by
  refine ⟨reaches.1, fun pnode member => ?_⟩
  rcases List.mem_cons.mp member with rfl | member
  · exact ⟨cases.low_le_high, .inr ⟨below, cases.before⟩⟩
  · obtain ⟨up, side⟩ := reaches.2 pnode member
    refine ⟨up, side.imp ?_ ?_⟩
    · exact fun above => ⟨above.1, fun y inLeft => above.2 y (List.mem_append_left _ inLeft)⟩
    · exact fun below => ⟨below.1, fun y inLeft => below.2 y (List.mem_append_left _ inLeft)⟩

theorem Reaches.right (cases : OrderedCases type nodes (inorder (.node x l r)))
    (reaches : Reaches type nodes ancestors (inorder (.node x l r)) value)
    (above : (nodes x).high < value) : Reaches type nodes (x :: ancestors) (inorder r) value := by
  have inTree : ∀ y ∈ inorder r, y ∈ inorder (.node x l r) := fun y member =>
    List.mem_append_right _ (List.mem_cons_of_mem _ member)
  refine ⟨reaches.1, fun pnode member => ?_⟩
  rcases List.mem_cons.mp member with rfl | member
  · exact ⟨cases.low_le_high, .inl ⟨above, cases.after⟩⟩
  · obtain ⟨up, side⟩ := reaches.2 pnode member
    refine ⟨up, side.imp ?_ ?_⟩
    · exact fun above => ⟨above.1, fun y inRight => above.2 y (inTree y inRight)⟩
    · exact fun below => ⟨below.1, fun y inRight => below.2 y (inTree y inRight)⟩

theorem TreeAt.leftSon {above : Option α} (tree : TreeAt nodes above (.node x l r))
    (ancestors : List α) : TreeAt nodes (x :: ancestors).head? l := tree.2.2.2.1

theorem TreeAt.rightSon {above : Option α} (tree : TreeAt nodes above (.node x l r))
    (ancestors : List α) : TreeAt nodes (x :: ancestors).head? r := tree.2.2.2.2

theorem TreeAt.chain (tree : TreeAt nodes ancestors.head? (.node x l r))
    (chain : Chain (fun y => (nodes y).parent) ancestors) :
    Chain (fun y => (nodes y).parent) (x :: ancestors) := ⟨tree.1, chain⟩

theorem isSingleLeaf.empty {above : Option α} (leaf : isSingleLeaf nodes x)
    (tree : TreeAt nodes above (.node x l r)) : l = .nil ∧ r = .nil :=
  ⟨root_eq_none.mp (tree.2.1.symm.trans leaf.2.1), root_eq_none.mp (tree.2.2.1.symm.trans leaf.2.2)⟩

variable {limit : Nat}

theorem follow_parents {nodes : Nodes α Label}
    (tree : TreeAt nodes ancestors.head? (.node x l r))
    (chain : Chain (fun y => (nodes y).parent) ancestors) (enough : ancestors.length ≤ limit) :
    follow (fun pnode => (nodes pnode).parent) limit (nodes x).parent = some ancestors := by
  have above : (nodes x).parent = ancestors.head? := tree.1
  rw [above]
  exact follow_chain chain enough

theorem wrap_pred {type : IndexType} {low : Int} (lowest : type.minValue ≤ low)
    (inside : low ≤ type.maxValue) (notMin : low ≠ type.minValue) :
    wrap type.unsigned type.precision (low - 1) = low - 1 := by
  apply wrap_eq_of_inRange
  have minFits := type.minFits
  have maxFits := type.maxFits
  unfold InRange at minFits maxFits ⊢
  split at minFits
  · rename_i unsigned
    rw [if_pos unsigned] at maxFits ⊢
    omega
  · rename_i signed
    rw [if_neg signed] at maxFits ⊢
    omega

theorem wrap_succ {type : IndexType} {high : Int} (lowest : type.minValue ≤ high)
    (inside : high ≤ type.maxValue) (notMax : high ≠ type.maxValue) :
    wrap type.unsigned type.precision (high + 1) = high + 1 := by
  apply wrap_eq_of_inRange
  have minFits := type.minFits
  have maxFits := type.maxFits
  unfold InRange at minFits maxFits ⊢
  split at minFits
  · rename_i unsigned
    rw [if_pos unsigned] at maxFits ⊢
    omega
  · rename_i signed
    rw [if_neg signed] at maxFits ⊢
    omega

theorem nodeHasLowBound_spec (tree : TreeAt nodes ancestors.head? (.node x l r))
    (chain : Chain (fun y => (nodes y).parent) ancestors) (enough : ancestors.length ≤ limit)
    (cases : OrderedCases type nodes (inorder (.node x l r))) :
    ∃ bounded, nodeHasLowBound type nodes limit x = some bounded ∧
      (bounded = true → ∀ value, Reaches type nodes ancestors (inorder (.node x l r)) value →
        (nodes x).low ≤ value) := by
  have up := cases.low_le_high
  have memberX : x ∈ inorder (.node x l r) := by simp
  have lowest := cases.lowest x memberX
  have highest := cases.highest x memberX
  unfold nodeHasLowBound
  by_cases isMin : (nodes x).low = type.minValue
  · refine ⟨true, if_pos isMin, fun _ value reaches => ?_⟩
    rw [isMin]
    exact reaches.1.1
  rw [if_neg isMin]
  by_cases hasLeft : (nodes x).left.isSome = true
  · exact ⟨false, if_pos hasLeft, fun absurd_ => absurd absurd_ Bool.false_ne_true⟩
  rw [if_neg hasLeft, wrap_pred lowest (up.trans highest) isMin, if_neg (by omega),
    follow_parents tree chain enough]
  refine ⟨_, rfl, fun found value reaches => ?_⟩
  obtain ⟨pnode, member, adjacent⟩ := List.any_eq_true.mp found
  have adjacent := of_decide_eq_true adjacent
  obtain ⟨upParent, ⟨above, _⟩ | ⟨_, nodesBelow⟩⟩ := reaches.2 pnode member
  · omega
  · have below := nodesBelow x memberX
    omega

theorem nodeHasHighBound_spec (tree : TreeAt nodes ancestors.head? (.node x l r))
    (chain : Chain (fun y => (nodes y).parent) ancestors) (enough : ancestors.length ≤ limit)
    (cases : OrderedCases type nodes (inorder (.node x l r))) :
    ∃ bounded, nodeHasHighBound type nodes limit x = some bounded ∧
      (bounded = true → ∀ value, Reaches type nodes ancestors (inorder (.node x l r)) value →
        value ≤ (nodes x).high) := by
  have up := cases.low_le_high
  have memberX : x ∈ inorder (.node x l r) := by simp
  have lowest := cases.lowest x memberX
  have highest := cases.highest x memberX
  unfold nodeHasHighBound
  by_cases isMax : (nodes x).high = type.maxValue
  · refine ⟨true, if_pos isMax, fun _ value reaches => ?_⟩
    rw [isMax]
    exact reaches.1.2
  rw [if_neg isMax]
  by_cases hasRight : (nodes x).right.isSome = true
  · exact ⟨false, if_pos hasRight, fun absurd_ => absurd absurd_ Bool.false_ne_true⟩
  rw [if_neg hasRight, wrap_succ (lowest.trans up) highest isMax, if_neg (by omega),
    follow_parents tree chain enough]
  refine ⟨_, rfl, fun found value reaches => ?_⟩
  obtain ⟨pnode, member, adjacent⟩ := List.any_eq_true.mp found
  have adjacent := of_decide_eq_true adjacent
  obtain ⟨upParent, ⟨_, nodesAbove⟩ | ⟨below, _⟩⟩ := reaches.2 pnode member
  · have above := nodesAbove x memberX
    omega
  · omega

theorem nodeIsBounded_spec (tree : TreeAt nodes ancestors.head? (.node x l r))
    (chain : Chain (fun y => (nodes y).parent) ancestors) (enough : ancestors.length ≤ limit)
    (cases : OrderedCases type nodes (inorder (.node x l r))) :
    ∃ bounded, nodeIsBounded type nodes limit x = some bounded ∧
      (bounded = true → ∀ value, Reaches type nodes ancestors (inorder (.node x l r)) value →
        (nodes x).low ≤ value ∧ value ≤ (nodes x).high) := by
  obtain ⟨low, isLow, lowBound⟩ := nodeHasLowBound_spec tree chain enough cases
  obtain ⟨high, isHigh, highBound⟩ := nodeHasHighBound_spec tree chain enough cases
  rw [nodeIsBounded, isLow, Option.bind_some]
  cases low with
  | false => exact ⟨false, rfl, fun absurd_ => absurd absurd_ Bool.false_ne_true⟩
  | true =>
    refine ⟨high, by rw [if_pos rfl, isHigh], fun bounded value reaches => ?_⟩
    exact ⟨lowBound rfl value reaches, highBound bounded value reaches⟩

end SameSide

def Comparison.test : Comparison → Int → Int → Prop
  | .eq, x, y => x = y
  | .gt, x, y => y < x
  | .lt, x, y => x < y
  | .ge, x, y => y ≤ x
  | .le, x, y => x ≤ y

section Registers

variable {unsigned : Bool} {w : Nat} {x y : Int}

theorem toNat_ofInt (fits : InRange true w x) : ((BitVec.ofInt w x).toNat : Int) = x := by
  rw [inRange_unsigned] at fits
  rw [BitVec.toNat_ofInt, Int.toNat_of_nonneg (Int.emod_nonneg _ (by positivity))]
  exact Int.emod_eq_of_lt fits.1 fits.2

theorem toInt_ofInt (fits : InRange false w x) : (BitVec.ofInt w x).toInt = x := by
  rw [BitVec.toInt_ofInt]
  exact wrap_eq_of_inRange fits

theorem ofInt_inj (xFits : InRange unsigned w x) (yFits : InRange unsigned w y) :
    BitVec.ofInt w x = BitVec.ofInt w y ↔ x = y := by
  refine ⟨fun equal => ?_, fun equal => by rw [equal]⟩
  cases unsigned with
  | true => rw [← toNat_ofInt xFits, ← toNat_ofInt yFits, equal]
  | false => rw [← toInt_ofInt xFits, ← toInt_ofInt yFits, equal]

theorem Comparison.holds_iff (xFits : InRange unsigned w x) (yFits : InRange unsigned w y)
    (comparison : Comparison) :
    comparison.holds unsigned (BitVec.ofInt w x) (BitVec.ofInt w y) = true ↔
      comparison.test x y := by
  cases unsigned with
  | true =>
    have xNat := toNat_ofInt xFits
    have yNat := toNat_ofInt yFits
    cases comparison with
    | eq => simpa [holds, test] using ofInt_inj xFits yFits
    | gt => simp only [holds, test, if_true, BitVec.ult, decide_eq_true_eq]; omega
    | lt => simp only [holds, test, if_true, BitVec.ult, decide_eq_true_eq]; omega
    | ge => simp only [holds, test, if_true, BitVec.ule, decide_eq_true_eq]; omega
    | le => simp only [holds, test, if_true, BitVec.ule, decide_eq_true_eq]; omega
  | false =>
    have xInt := toInt_ofInt xFits
    have yInt := toInt_ofInt yFits
    cases comparison with
    | eq => simpa [holds, test] using ofInt_inj xFits yFits
    | gt => simp [holds, test, BitVec.slt, xInt, yInt]
    | lt => simp [holds, test, BitVec.slt, xInt, yInt]
    | ge => simp [holds, test, BitVec.sle, xInt, yInt]
    | le => simp [holds, test, BitVec.sle, xInt, yInt]

theorem ofInt_sub_ofInt (x y : Int) :
    BitVec.ofInt w x - BitVec.ofInt w y = BitVec.ofInt w (x - y) := by
  apply BitVec.eq_of_toInt_eq
  simp [BitVec.toInt_ofInt]

theorem above_holds_iff {low high : Int} (xFits : InRange unsigned w x)
    (lowFits : InRange unsigned w low) (highFits : InRange unsigned w high) (up : low ≤ high) :
    Test.holds unsigned (.above (BitVec.ofInt w low) (BitVec.ofInt w high - BitVec.ofInt w low))
      (BitVec.ofInt w x) = true ↔ x < low ∨ high < x := by
  have span : ∀ {a b : Int}, InRange unsigned w a → InRange unsigned w b →
      ((BitVec.ofInt w a - BitVec.ofInt w b).toNat : Int) =
        if b ≤ a then a - b else a - b + (2 ^ w : Nat) := by
    intro a b aFits bFits
    have modulus : (0 : Int) < (2 ^ w : Nat) := by positivity
    have bounds : -((2 ^ w : Nat) : Int) < a - b ∧ a - b < (2 ^ w : Nat) := by
      cases unsigned with
      | true =>
        rw [inRange_unsigned] at aFits bFits
        omega
      | false =>
        rw [inRange_signed] at aFits bFits
        omega
    rw [ofInt_sub_ofInt, BitVec.toNat_ofInt, Int.toNat_of_nonneg (Int.emod_nonneg _ modulus.ne')]
    by_cases le : b ≤ a
    · rw [if_pos le]
      exact Int.emod_eq_of_lt (by omega) bounds.2
    · rw [if_neg le, ← Int.add_emod_right]
      exact Int.emod_eq_of_lt (by omega) (by omega)
  have spanHigh := span highFits lowFits
  have spanX := span xFits lowFits
  rw [if_pos up] at spanHigh
  have close : high - x < (2 ^ w : Nat) := by
    cases unsigned with
    | true =>
      rw [inRange_unsigned] at xFits highFits
      omega
    | false =>
      rw [inRange_signed] at xFits highFits
      omega
  simp only [Test.holds, BitVec.ult, decide_eq_true_eq]
  split at spanX
  · omega
  · omega

end Registers

section Rules

variable {w : Nat} {type : IndexType} {default : Label}

def Sends (type : IndexType) (default : Label) (emitter : Emitter (Test w) Label)
    (condition : Int → Prop) (target : Int → Label) : Prop :=
  Delivers (fun test value => Test.holds type.unsigned test (BitVec.ofInt w value)) default emitter
    condition target

theorem IndexType.Contains.fits (narrow : type.precision ≤ w) {value : Int}
    (contains : type.Contains value) : InRange type.unsigned w value := by
  have wider : 2 ^ type.precision ≤ 2 ^ w := Nat.pow_le_pow_right (by omega) narrow
  obtain ⟨lower, upper⟩ := contains
  have minFits := type.minFits
  have maxFits := type.maxFits
  unfold InRange at minFits maxFits ⊢
  split at minFits
  · rename_i unsigned
    rw [if_pos unsigned] at maxFits ⊢
    omega
  · rename_i signed
    rw [if_neg signed] at maxFits ⊢
    omega

variable {emitter : Emitter (Test w) Label} {condition : Int → Prop} {target : Int → Label}
  {label : Label}

theorem Sends.jump (same : ∀ value, condition value → target value = label) :
    Sends type default (emitJump w label) condition target :=
  Delivers.mono (Delivers.jump condition label) (fun _ meets => meets)
    fun value meets => (same value meets).symm

theorem Sends.nothing (same : ∀ value, condition value → target value = default) :
    Sends type default (.nothing : Emitter (Test w) Label) condition target :=
  Delivers.mono (Delivers.nothing condition) (fun _ meets => meets)
    fun value meets => (same value meets).symm

theorem Sends.weaken {stronger : Int → Prop} {same : Int → Label}
    (sends : Sends type default emitter condition target)
    (implies : ∀ value, stronger value → condition value)
    (equal : ∀ value, stronger value → target value = same value) :
    Sends type default emitter stronger same := Delivers.mono sends implies equal

theorem Sends.choose {condition? : Option Bool} {decided : Bool} {yes no : Emitter (Test w) Label}
    (isDecided : condition? = some decided)
    (ifYes : decided = true → Sends type default yes condition target)
    (ifNo : decided = false → Sends type default no condition target) :
    Sends type default (.choose condition? yes no) condition target := by
  rw [isDecided, choose_some]
  cases decided with
  | true => exact ifYes rfl
  | false => exact ifNo rfl

variable (narrow : type.precision ≤ w) (inType : ∀ value, condition value → type.Contains value)
include narrow inType

theorem holds_compare (comparison : Comparison) {bound value : Int} (contains : type.Contains bound)
    (meets : condition value) :
    Test.holds type.unsigned (.compare comparison (BitVec.ofInt w bound)) (BitVec.ofInt w value) =
      true ↔ comparison.test value bound :=
  Comparison.holds_iff ((inType value meets).fits narrow) (contains.fits narrow) comparison

theorem Sends.compare (comparison : Comparison) {bound : Int} (contains : type.Contains bound)
    (same : ∀ value, condition value → comparison.test value bound → target value = label)
    (rest : Sends type default emitter
      (fun value => condition value ∧ ¬ comparison.test value bound) target) :
    Sends type default (emitCmpAndJump w comparison bound label ++ emitter) condition target := by
  have holds := fun value (meets : condition value) =>
    holds_compare narrow inType comparison contains meets
  have continues : Sends type default emitter (fun value => condition value ∧
      Test.holds type.unsigned (.compare comparison (BitVec.ofInt w bound)) (BitVec.ofInt w value) =
        false) target := by
    refine rest.weaken (fun value meets => ⟨meets.1, fun test => ?_⟩) fun _ _ => rfl
    rw [(holds value meets.1).mpr test] at meets
    exact Bool.false_ne_true meets.2.symm
  have jumps := Delivers.jumpIf _ label continues
  refine Delivers.mono jumps (fun _ meets => meets) fun value meets => ?_
  split
  · exact (same value meets ((holds value meets).mp ‹_›)).symm
  · rfl

theorem Sends.compare_last (comparison : Comparison) {bound : Int} (contains : type.Contains bound)
    (same : ∀ value, condition value → comparison.test value bound → target value = label)
    (others : ∀ value, condition value → ¬ comparison.test value bound → target value = default) :
    Sends type default (emitCmpAndJump w comparison bound label) condition target := by
  rw [← append_nothing (emitCmpAndJump w comparison bound label)]
  exact Sends.compare narrow inType comparison contains same
    (Sends.nothing fun value meets => others value meets.1 meets.2)

theorem Sends.bothSides {left right : Emitter (Test w) Label} {bound : Int}
    (contains : type.Contains bound)
    (sendsLeft : Sends type default left (fun value => condition value ∧ value ≤ bound) target)
    (sendsRight : Sends type default right (fun value => condition value ∧ bound < value) target) :
    Sends type default (emitBothSides w default bound left right) condition target := by
  have holds := fun value (meets : condition value) =>
    holds_compare narrow inType .gt contains meets
  have below : Sends type default left (fun value => condition value ∧
      Test.holds type.unsigned (.compare .gt (BitVec.ofInt w bound)) (BitVec.ofInt w value) =
        false) target := by
    refine sendsLeft.weaken (fun value meets => ⟨meets.1, ?_⟩) fun _ _ => rfl
    by_contra above
    rw [(holds value meets.1).mpr (not_le.mp above)] at meets
    exact Bool.false_ne_true meets.2.symm
  have above : Sends type default right (fun value => condition value ∧
      Test.holds type.unsigned (.compare .gt (BitVec.ofInt w bound)) (BitVec.ofInt w value) =
        true) target :=
    sendsRight.weaken (fun value meets => ⟨meets.1, (holds value meets.1).mp meets.2⟩)
      fun _ _ => rfl
  have splits := Delivers.split _ below above
  refine Delivers.mono splits (fun _ meets => meets) fun value _ => ?_
  split
  · rfl
  · rfl

theorem Sends.above {low high : Int} (containsLow : type.Contains low)
    (containsHigh : type.Contains high) (up : low ≤ high)
    (same : ∀ value, condition value → value < low ∨ high < value → target value = label)
    (rest : Sends type default emitter
      (fun value => condition value ∧ low ≤ value ∧ value ≤ high) target) :
    Sends type default (emit (.jumpIf (.above (BitVec.ofInt w low)
      (BitVec.ofInt w high - BitVec.ofInt w low)) (.code label)) ++ emitter) condition target := by
  have holds := fun value (meets : condition value) => above_holds_iff
    ((inType value meets).fits narrow) (containsLow.fits narrow) (containsHigh.fits narrow) up
  have continues : Sends type default emitter (fun value => condition value ∧
      Test.holds type.unsigned (.above (BitVec.ofInt w low)
        (BitVec.ofInt w high - BitVec.ofInt w low)) (BitVec.ofInt w value) = false) target := by
    refine rest.weaken (fun value meets => ⟨meets.1, ?_⟩) fun _ _ => rfl
    by_contra outside
    rw [(holds value meets.1).mpr (by omega)] at meets
    exact Bool.false_ne_true meets.2.symm
  have jumps := Delivers.jumpIf _ label continues
  refine Delivers.mono jumps (fun _ meets => meets) fun value meets => ?_
  split
  · exact (same value meets ((holds value meets).mp ‹_›)).symm
  · rfl

end Rules

section Node

variable {w : Nat} {type : IndexType} {nodes : Nodes α Label} {default : Label} {limit : Nat}
  {ancestors : List α} {l r : BinaryTree α} {x : α}

theorem Sends.toLeft {left : Emitter (Test w) Label} {condition : Int → Prop}
    (cases : OrderedCases type nodes (inorder (.node x l r)))
    (sends : Sends type default left (Reaches type nodes (x :: ancestors) (inorder l))
      (classify nodes default (inorder l)))
    (below : ∀ value, condition value → Reaches type nodes ancestors (inorder (.node x l r)) value ∧
      value < (nodes x).low) :
    Sends type default left condition (classify nodes default (inorder (.node x l r))) :=
  sends.weaken (fun value meets => (below value meets).1.left cases (below value meets).2)
    fun value meets => (classify_below cases (below value meets).2).symm

theorem Sends.toRight {right : Emitter (Test w) Label} {condition : Int → Prop}
    (cases : OrderedCases type nodes (inorder (.node x l r)))
    (sends : Sends type default right (Reaches type nodes (x :: ancestors) (inorder r))
      (classify nodes default (inorder r)))
    (above : ∀ value, condition value → Reaches type nodes ancestors (inorder (.node x l r)) value ∧
      (nodes x).high < value) :
    Sends type default right condition (classify nodes default (inorder (.node x l r))) :=
  sends.weaken (fun value meets => (above value meets).1.right cases (above value meets).2)
    fun value meets => (classify_above cases (above value meets).2).symm

theorem OrderedCases.containsLow (cases : OrderedCases type nodes (inorder (.node x l r))) :
    type.Contains (nodes x).low :=
  ⟨cases.lowest x (by simp), cases.low_le_high.trans (cases.highest x (by simp))⟩

theorem OrderedCases.containsHigh (cases : OrderedCases type nodes (inorder (.node x l r))) :
    type.Contains (nodes x).high :=
  ⟨(cases.lowest x (by simp)).trans cases.low_le_high, cases.highest x (by simp)⟩

variable (narrow : type.precision ≤ w)
include narrow

theorem emitRange_sends (tree : TreeAt nodes ancestors.head? (.node x .nil .nil))
    (chain : Chain (fun y => (nodes y).parent) ancestors) (enough : ancestors.length ≤ limit)
    (cases : OrderedCases type nodes (inorder (.node x .nil .nil))) :
    Sends type default (emitRange w type nodes default limit x)
      (Reaches type nodes ancestors (inorder (.node x .nil .nil)))
      (classify nodes default (inorder (.node x .nil .nil))) := by
  obtain ⟨low, isLow, lowBound⟩ := nodeHasLowBound_spec tree chain enough cases
  obtain ⟨high, isHigh, highBound⟩ := nodeHasHighBound_spec tree chain enough cases
  have inType : ∀ value, Reaches type nodes ancestors (inorder (.node x .nil .nil)) value →
      type.Contains value := fun value reaches => reaches.1
  have below : ∀ value, Reaches type nodes ancestors (inorder (.node x .nil .nil)) value →
      value < (nodes x).low → classify nodes default (inorder (.node x .nil .nil)) value = default :=
    fun value _ isBelow => classify_below cases isBelow
  have above : ∀ value, Reaches type nodes ancestors (inorder (.node x .nil .nil)) value →
      (nodes x).high < value → classify nodes default (inorder (.node x .nil .nil)) value = default :=
    fun value _ isAbove => classify_above cases isAbove
  rw [emitRange, isLow, isHigh]
  simp only [choose_some]
  cases high with
  | true =>
    cases low with
    | true =>
      simp only [if_true, nothing_append]
      exact Sends.jump fun value reaches =>
        classify_inside cases (lowBound rfl value reaches) (highBound rfl value reaches)
    | false =>
      simp only [if_true, Bool.false_eq_true, if_false]
      refine Sends.compare narrow inType .lt cases.containsLow below (Sends.jump ?_)
      intro value meets
      have notBelow : ¬ value < (nodes x).low := meets.2
      exact classify_inside cases (not_lt.mp notBelow) (highBound rfl value meets.1)
  | false =>
    cases low with
    | true =>
      simp only [if_true, Bool.false_eq_true, if_false]
      refine Sends.compare narrow inType .gt cases.containsHigh above (Sends.jump ?_)
      intro value meets
      have notAbove : ¬ (nodes x).high < value := meets.2
      exact classify_inside cases (lowBound rfl value meets.1) (not_lt.mp notAbove)
    | false =>
      simp only [Bool.false_eq_true, if_false]
      refine Sends.above narrow inType cases.containsLow cases.containsHigh cases.low_le_high
        (fun value reaches outside => ?_) (Sends.jump fun value meets => ?_)
      · rcases outside with isBelow | isAbove
        · exact below value reaches isBelow
        · exact above value reaches isAbove
      · exact classify_inside cases meets.2.1 meets.2.2

theorem lowGuard_sends {condition : Int → Prop} {rest : Emitter (Test w) Label}
    (tree : TreeAt nodes ancestors.head? (.node x .nil r))
    (chain : Chain (fun y => (nodes y).parent) ancestors) (enough : ancestors.length ≤ limit)
    (cases : OrderedCases type nodes (inorder (.node x .nil r)))
    (reaches : ∀ value, condition value →
      Reaches type nodes ancestors (inorder (.node x .nil r)) value)
    {bound : Int} (isLow : bound = (nodes x).low)
    (sends : Sends type default rest (fun value => condition value ∧ (nodes x).low ≤ value)
      (classify nodes default (inorder (.node x .nil r)))) :
    Sends type default
      (choose (nodeHasLowBound type nodes limit x) nothing (emitCmpAndJump w .lt bound default) ++
        rest)
      condition (classify nodes default (inorder (.node x .nil r))) := by
  obtain ⟨low, hasLow, lowBound⟩ := nodeHasLowBound_spec tree chain enough cases
  rw [hasLow, choose_some, isLow]
  cases low with
  | true =>
    rw [if_pos rfl, nothing_append]
    exact sends.weaken (fun value meets => ⟨meets, lowBound rfl value (reaches value meets)⟩)
      fun _ _ => rfl
  | false =>
    rw [if_neg Bool.false_ne_true]
    refine Sends.compare narrow (fun value meets => (reaches value meets).1) .lt cases.containsLow
      (fun value _ below => classify_below cases below) ?_
    exact sends.weaken (fun value meets => ⟨meets.1, not_lt.mp meets.2⟩) fun _ _ => rfl

theorem highGuard_sends {condition : Int → Prop} {rest : Emitter (Test w) Label}
    (tree : TreeAt nodes ancestors.head? (.node x l .nil))
    (chain : Chain (fun y => (nodes y).parent) ancestors) (enough : ancestors.length ≤ limit)
    (cases : OrderedCases type nodes (inorder (.node x l .nil)))
    (reaches : ∀ value, condition value →
      Reaches type nodes ancestors (inorder (.node x l .nil)) value)
    (sends : Sends type default rest (fun value => condition value ∧ value ≤ (nodes x).high)
      (classify nodes default (inorder (.node x l .nil)))) :
    Sends type default
      (choose (nodeHasHighBound type nodes limit x) nothing
        (emitCmpAndJump w .gt (nodes x).high default) ++ rest)
      condition (classify nodes default (inorder (.node x l .nil))) := by
  obtain ⟨high, hasHigh, highBound⟩ := nodeHasHighBound_spec tree chain enough cases
  rw [hasHigh, choose_some]
  cases high with
  | true =>
    rw [if_pos rfl, nothing_append]
    exact sends.weaken (fun value meets => ⟨meets, highBound rfl value (reaches value meets)⟩)
      fun _ _ => rfl
  | false =>
    rw [if_neg Bool.false_ne_true]
    refine Sends.compare narrow (fun value meets => (reaches value meets).1) .gt
      cases.containsHigh (fun value _ above => classify_above cases above) ?_
    exact sends.weaken (fun value meets => ⟨meets.1, not_lt.mp meets.2⟩) fun _ _ => rfl

theorem rangeRight_sends {right : Emitter (Test w) Label}
    (tree : TreeAt nodes ancestors.head? (.node x .nil r))
    (chain : Chain (fun y => (nodes y).parent) ancestors) (enough : ancestors.length ≤ limit)
    (cases : OrderedCases type nodes (inorder (.node x .nil r)))
    (sends : Sends type default right (Reaches type nodes (x :: ancestors) (inorder r))
      (classify nodes default (inorder r))) :
    Sends type default
      (choose (nodeHasLowBound type nodes limit x) nothing
          (emitCmpAndJump w .lt (nodes x).low default) ++
        (emitCmpAndJump w .le (nodes x).high (nodes x).codeLabel ++ right))
      (Reaches type nodes ancestors (inorder (.node x .nil r)))
      (classify nodes default (inorder (.node x .nil r))) := by
  apply lowGuard_sends narrow tree chain enough cases (fun _ reaches => reaches) rfl
  apply Sends.compare narrow (fun value meets => meets.1.1) .le cases.containsHigh
  · exact fun value meets within => classify_inside cases meets.2 within
  · exact sends.toRight cases fun value meets => ⟨meets.1.1, not_le.mp meets.2⟩

theorem rangeLeft_sends {left : Emitter (Test w) Label}
    (tree : TreeAt nodes ancestors.head? (.node x l .nil))
    (chain : Chain (fun y => (nodes y).parent) ancestors) (enough : ancestors.length ≤ limit)
    (cases : OrderedCases type nodes (inorder (.node x l .nil)))
    (sends : Sends type default left (Reaches type nodes (x :: ancestors) (inorder l))
      (classify nodes default (inorder l))) :
    Sends type default
      (choose (nodeHasHighBound type nodes limit x) nothing
          (emitCmpAndJump w .gt (nodes x).high default) ++
        (emitCmpAndJump w .ge (nodes x).low (nodes x).codeLabel ++ left))
      (Reaches type nodes ancestors (inorder (.node x l .nil)))
      (classify nodes default (inorder (.node x l .nil))) := by
  apply highGuard_sends narrow tree chain enough cases (fun _ reaches => reaches)
  apply Sends.compare narrow (fun value meets => meets.1.1) .ge cases.containsLow
  · exact fun value meets within => classify_inside cases within meets.2
  · exact sends.toLeft cases fun value meets => ⟨meets.1.1, not_le.mp meets.2⟩

theorem rangeBoth_sends {left right : Emitter (Test w) Label} {xr : α} {rl rr : BinaryTree α}
    (tree : TreeAt nodes ancestors.head? (.node x l (.node xr rl rr)))
    (chain : Chain (fun y => (nodes y).parent) ancestors) (enough : ancestors.length + 1 ≤ limit)
    (cases : OrderedCases type nodes (inorder (.node x l (.node xr rl rr))))
    (sendsLeft : Sends type default left (Reaches type nodes (x :: ancestors) (inorder l))
      (classify nodes default (inorder l)))
    (sendsRight : Sends type default right
      (Reaches type nodes (x :: ancestors) (inorder (.node xr rl rr)))
      (classify nodes default (inorder (.node xr rl rr)))) :
    Sends type default
      (choose (nodeIsBounded type nodes limit xr)
        (emitCmpAndJump w .gt (nodes x).high (nodes xr).codeLabel ++
          (emitCmpAndJump w .ge (nodes x).low (nodes x).codeLabel ++ left))
        (emitBothSides w default (nodes x).high
          (emitCmpAndJump w .ge (nodes x).low (nodes x).codeLabel ++ left) right))
      (Reaches type nodes ancestors (inorder (.node x l (.node xr rl rr))))
      (classify nodes default (inorder (.node x l (.node xr rl rr)))) := by
  obtain ⟨bounded, isBounded, within⟩ :=
    nodeIsBounded_spec (tree.rightSon ancestors) (tree.chain chain) enough cases.right
  have notAbove : ∀ {condition : Int → Prop}, (∀ value, condition value →
      Reaches type nodes ancestors (inorder (.node x l (.node xr rl rr))) value ∧
        value ≤ (nodes x).high) →
      Sends type default (emitCmpAndJump w .ge (nodes x).low (nodes x).codeLabel ++ left) condition
        (classify nodes default (inorder (.node x l (.node xr rl rr)))) := by
    intro condition meets
    apply Sends.compare narrow (fun value holds => (meets value holds).1.1) .ge cases.containsLow
    · exact fun value holds inside => classify_inside cases inside (meets value holds).2
    · exact sendsLeft.toLeft cases fun value holds => ⟨(meets value holds.1).1, not_le.mp holds.2⟩
  refine Sends.choose isBounded (fun isTrue => ?_) fun _ => ?_
  · apply Sends.compare narrow (fun value reaches => reaches.1) .gt cases.containsHigh
    · intro value reaches above
      obtain ⟨low, high⟩ := within isTrue value (reaches.right cases above)
      rw [classify_above cases above, classify_inside cases.right low high]
    · exact notAbove fun value meets => ⟨meets.1, not_lt.mp meets.2⟩
  · exact Sends.bothSides narrow (fun value reaches => reaches.1) cases.containsHigh
      (notAbove fun value meets => meets) (sendsRight.toRight cases fun value meets => meets)

theorem singleRight_sends {right : Emitter (Test w) Label} {xr : α} {rl rr : BinaryTree α}
    (tree : TreeAt nodes ancestors.head? (.node x .nil (.node xr rl rr)))
    (chain : Chain (fun y => (nodes y).parent) ancestors) (enough : ancestors.length ≤ limit)
    (cases : OrderedCases type nodes (inorder (.node x .nil (.node xr rl rr))))
    (single : (nodes x).low = (nodes x).high)
    (sends : Sends type default right
      (Reaches type nodes (x :: ancestors) (inorder (.node xr rl rr)))
      (classify nodes default (inorder (.node xr rl rr)))) :
    Sends type default
      (if isSingleLeaf nodes xr then emitCmpAndJump w .eq (nodes xr).low (nodes xr).codeLabel
      else
        choose (nodeHasLowBound type nodes limit x) nothing
          (emitCmpAndJump w .lt (nodes x).high default) ++ right)
      (fun value => Reaches type nodes ancestors (inorder (.node x .nil (.node xr rl rr))) value ∧
        value ≠ (nodes x).low)
      (classify nodes default (inorder (.node x .nil (.node xr rl rr)))) := by
  have inType : ∀ value, Reaches type nodes ancestors
      (inorder (.node x .nil (.node xr rl rr))) value ∧ value ≠ (nodes x).low →
      type.Contains value := fun value meets => meets.1.1
  split
  · rename_i leaf
    have singleRight := leaf.1
    obtain ⟨rfl, rfl⟩ := leaf.empty (tree.rightSon ancestors)
    apply Sends.compare_last narrow inType .eq cases.right.containsLow
    · intro value meets (atRight : value = (nodes xr).low)
      have above := cases.after xr (by simp)
      rw [classify_above cases (by omega), classify_inside cases.right (by omega) (by omega)]
    · intro value meets (notRight : value ≠ (nodes xr).low)
      have notHere := meets.2
      apply classify_none
      intro y member
      simp only [inorder_node, inorder_nil, List.nil_append, List.mem_cons, List.not_mem_nil,
        or_false] at member
      rcases member with rfl | rfl
      · omega
      · omega
  · apply lowGuard_sends narrow tree chain enough cases (fun value meets => meets.1) single.symm
    refine sends.toRight cases fun value meets => ⟨meets.1.1, ?_⟩
    have notHere := meets.1.2
    have notBelow := meets.2
    omega

theorem singleLeft_sends {left : Emitter (Test w) Label} {xl : α} {ll lr : BinaryTree α}
    (tree : TreeAt nodes ancestors.head? (.node x (.node xl ll lr) .nil))
    (chain : Chain (fun y => (nodes y).parent) ancestors) (enough : ancestors.length ≤ limit)
    (cases : OrderedCases type nodes (inorder (.node x (.node xl ll lr) .nil)))
    (single : (nodes x).low = (nodes x).high)
    (sends : Sends type default left
      (Reaches type nodes (x :: ancestors) (inorder (.node xl ll lr)))
      (classify nodes default (inorder (.node xl ll lr)))) :
    Sends type default
      (if isSingleLeaf nodes xl then emitCmpAndJump w .eq (nodes xl).low (nodes xl).codeLabel
      else
        choose (nodeHasHighBound type nodes limit x) nothing
          (emitCmpAndJump w .gt (nodes x).high default) ++ left)
      (fun value => Reaches type nodes ancestors (inorder (.node x (.node xl ll lr) .nil)) value ∧
        value ≠ (nodes x).low)
      (classify nodes default (inorder (.node x (.node xl ll lr) .nil))) := by
  have inType : ∀ value, Reaches type nodes ancestors
      (inorder (.node x (.node xl ll lr) .nil)) value ∧ value ≠ (nodes x).low →
      type.Contains value := fun value meets => meets.1.1
  split
  · rename_i leaf
    have singleLeft := leaf.1
    obtain ⟨rfl, rfl⟩ := leaf.empty (tree.leftSon ancestors)
    apply Sends.compare_last narrow inType .eq cases.left.containsLow
    · intro value meets (atLeft : value = (nodes xl).low)
      have below := cases.before xl (by simp)
      rw [classify_below cases (by omega), classify_inside cases.left (by omega) (by omega)]
    · intro value meets (notLeft : value ≠ (nodes xl).low)
      have notHere := meets.2
      apply classify_none
      intro y member
      simp only [inorder_node, inorder_nil, List.nil_append, List.mem_append, List.mem_cons,
        List.not_mem_nil, or_false] at member
      rcases member with rfl | rfl
      · omega
      · omega
  · apply highGuard_sends narrow tree chain enough cases (fun value meets => meets.1)
    refine sends.toLeft cases fun value meets => ⟨meets.1.1, ?_⟩
    have notHere := meets.1.2
    have notAbove := meets.2
    omega

theorem singleBoth_sends {left right : Emitter (Test w) Label} {xl xr : α}
    {ll lr rl rr : BinaryTree α}
    (tree : TreeAt nodes ancestors.head? (.node x (.node xl ll lr) (.node xr rl rr)))
    (chain : Chain (fun y => (nodes y).parent) ancestors) (enough : ancestors.length + 1 ≤ limit)
    (cases : OrderedCases type nodes (inorder (.node x (.node xl ll lr) (.node xr rl rr))))
    (single : (nodes x).low = (nodes x).high)
    (sendsLeft : Sends type default left
      (Reaches type nodes (x :: ancestors) (inorder (.node xl ll lr)))
      (classify nodes default (inorder (.node xl ll lr))))
    (sendsRight : Sends type default right
      (Reaches type nodes (x :: ancestors) (inorder (.node xr rl rr)))
      (classify nodes default (inorder (.node xr rl rr)))) :
    Sends type default
      (choose (nodeIsBounded type nodes limit xr)
        (emitCmpAndJump w .gt (nodes x).high (nodes xr).codeLabel ++ left)
        (choose (nodeIsBounded type nodes limit xl)
          (emitCmpAndJump w .lt (nodes x).high (nodes xl).codeLabel ++ right)
          (if isSingleLeaf nodes xr ∧ isSingleLeaf nodes xl then
            emitCmpAndJump w .eq (nodes xr).low (nodes xr).codeLabel ++
              emitCmpAndJump w .eq (nodes xl).low (nodes xl).codeLabel
          else emitBothSides w default (nodes x).high left right)))
      (fun value => Reaches type nodes ancestors
        (inorder (.node x (.node xl ll lr) (.node xr rl rr))) value ∧ value ≠ (nodes x).low)
      (classify nodes default (inorder (.node x (.node xl ll lr) (.node xr rl rr)))) := by
  have inType : ∀ value, Reaches type nodes ancestors
      (inorder (.node x (.node xl ll lr) (.node xr rl rr))) value ∧ value ≠ (nodes x).low →
      type.Contains value := fun value meets => meets.1.1
  obtain ⟨boundedRight, isBoundedRight, withinRight⟩ :=
    nodeIsBounded_spec (tree.rightSon ancestors) (tree.chain chain) enough cases.right
  obtain ⟨boundedLeft, isBoundedLeft, withinLeft⟩ :=
    nodeIsBounded_spec (tree.leftSon ancestors) (tree.chain chain) enough cases.left
  refine Sends.choose isBoundedRight (fun isTrue => ?_) fun _ =>
    Sends.choose isBoundedLeft (fun isTrue => ?_) fun _ => ?_
  · apply Sends.compare narrow inType .gt cases.containsHigh
    · intro value meets (above : (nodes x).high < value)
      obtain ⟨low, high⟩ := withinRight isTrue value (meets.1.right cases above)
      rw [classify_above cases above, classify_inside cases.right low high]
    · refine sendsLeft.toLeft cases fun value meets => ⟨meets.1.1, ?_⟩
      have notHere := meets.1.2
      have notAbove : ¬ (nodes x).high < value := meets.2
      omega
  · apply Sends.compare narrow inType .lt cases.containsHigh
    · intro value meets (below : value < (nodes x).high)
      rw [← single] at below
      obtain ⟨low, high⟩ := withinLeft isTrue value (meets.1.left cases below)
      rw [classify_below cases below, classify_inside cases.left low high]
    · refine sendsRight.toRight cases fun value meets => ⟨meets.1.1, ?_⟩
      have notHere := meets.1.2
      have notBelow : ¬ value < (nodes x).high := meets.2
      omega
  · split
    · rename_i leaves
      obtain ⟨rightLeaf, leftLeaf⟩ := leaves
      have singleRight := rightLeaf.1
      have singleLeft := leftLeaf.1
      obtain ⟨rfl, rfl⟩ := rightLeaf.empty (tree.rightSon ancestors)
      obtain ⟨rfl, rfl⟩ := leftLeaf.empty (tree.leftSon ancestors)
      apply Sends.compare narrow inType .eq cases.right.containsLow
      · intro value meets (atRight : value = (nodes xr).low)
        have above := cases.after xr (by simp)
        rw [classify_above cases (by omega), classify_inside cases.right (by omega) (by omega)]
      apply Sends.compare_last narrow (fun value meets => inType value meets.1) .eq
        cases.left.containsLow
      · intro value meets (atLeft : value = (nodes xl).low)
        have below := cases.before xl (by simp)
        rw [classify_below cases (by omega), classify_inside cases.left (by omega) (by omega)]
      · intro value meets (notLeft : value ≠ (nodes xl).low)
        have notHere := meets.1.2
        have notRight : value ≠ (nodes xr).low := meets.2
        apply classify_none
        intro y member
        simp only [inorder_node, inorder_nil, List.nil_append, List.mem_append, List.mem_cons,
          List.not_mem_nil, or_false] at member
        rcases member with rfl | rfl | rfl
        · omega
        · omega
        · omega
    · apply Sends.bothSides narrow inType cases.containsHigh
      · refine sendsLeft.toLeft cases fun value meets => ⟨meets.1.1, ?_⟩
        have notHere := meets.1.2
        have notAbove := meets.2
        omega
      · exact sendsRight.toRight cases fun value meets => ⟨meets.1.1, meets.2⟩

theorem emitCaseNodes_sends (fuel : Nat) {ancestors : List α} {l r : BinaryTree α} {x : α}
    (tree : TreeAt nodes ancestors.head? (.node x l r))
    (chain : Chain (fun y => (nodes y).parent) ancestors)
    (enough : ancestors.length + (inorder (.node x l r)).length ≤ limit)
    (fuelEnough : (inorder (.node x l r)).length ≤ fuel)
    (cases : OrderedCases type nodes (inorder (.node x l r))) :
    Sends type default (emitCaseNodes w type nodes default limit fuel x)
      (Reaches type nodes ancestors (inorder (.node x l r)))
      (classify nodes default (inorder (.node x l r))) := by
  induction fuel generalizing ancestors l r x with
  | zero => simp at fuelEnough
  | succ fuel ih =>
    have isLeft : (nodes x).left = root l := tree.2.1
    have isRight : (nodes x).right = root r := tree.2.2.1
    rw [inorder_node, List.length_append, List.length_cons] at enough fuelEnough
    have sendsLeft : ∀ xl ll lr, l = .node xl ll lr →
        Sends type default (emitCaseNodes w type nodes default limit fuel xl)
          (Reaches type nodes (x :: ancestors) (inorder l)) (classify nodes default (inorder l)) := by
      rintro xl ll lr rfl
      exact ih (tree.leftSon ancestors) (tree.chain chain)
        (by rw [List.length_cons]; omega) (by omega) cases.left
    have sendsRight : ∀ xr rl rr, r = .node xr rl rr →
        Sends type default (emitCaseNodes w type nodes default limit fuel xr)
          (Reaches type nodes (x :: ancestors) (inorder r)) (classify nodes default (inorder r)) := by
      rintro xr rl rr rfl
      exact ih (tree.rightSon ancestors) (tree.chain chain)
        (by rw [List.length_cons]; omega) (by omega) cases.right
    obtain ⟨bounded, isBounded, within⟩ :=
      nodeIsBounded_spec tree chain (show ancestors.length ≤ limit by omega) cases
    rw [emitCaseNodes]
    refine Sends.choose isBounded (fun isTrue => ?_) fun _ => ?_
    · exact Sends.jump fun value reaches =>
        classify_inside cases (within isTrue value reaches).1 (within isTrue value reaches).2
    rw [isLeft, isRight]
    split
    · rename_i single
      apply Sends.compare narrow (fun value reaches => reaches.1) .eq cases.containsLow
      · intro value _ (here : value = (nodes x).low)
        exact classify_inside cases (by omega) (by omega)
      cases l with
      | nil =>
        cases r with
        | nil =>
          refine Sends.nothing fun value meets => ?_
          have notHere : value ≠ (nodes x).low := meets.2
          rcases lt_or_gt_of_ne notHere with below | above
          · exact classify_below cases below
          · exact classify_above cases (single ▸ above)
        | node xr rl rr =>
          exact singleRight_sends narrow tree chain (by omega) cases single
            (sendsRight xr rl rr rfl)
      | node xl ll lr =>
        cases r with
        | nil =>
          exact singleLeft_sends narrow tree chain (by omega) cases single
            (sendsLeft xl ll lr rfl)
        | node xr rl rr =>
          exact singleBoth_sends narrow tree chain (by simp at enough; omega) cases single
            (sendsLeft xl ll lr rfl) (sendsRight xr rl rr rfl)
    · cases l with
      | nil =>
        cases r with
        | nil => exact emitRange_sends narrow tree chain (by omega) cases
        | node xr rl rr =>
          exact rangeRight_sends narrow tree chain (by omega) cases (sendsRight xr rl rr rfl)
      | node xl ll lr =>
        cases r with
        | nil =>
          exact rangeLeft_sends narrow tree chain (by omega) cases (sendsLeft xl ll lr rfl)
        | node xr rl rr =>
          exact rangeBoth_sends narrow tree chain (by simp at enough; omega) cases
            (sendsLeft xl ll lr rfl) (sendsRight xr rl rr rfl)

end Node

end GccCil.Gcc.Switch
