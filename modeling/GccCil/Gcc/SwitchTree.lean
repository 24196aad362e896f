import GccCil.Gcc.CaseEmission

/-!
# Decision trees classify the index

The whole expansion of a switch into a decision tree: the tree is balanced and
its code takes each index value to its case, if the cost table is only read
inside its bounds.  `estimate_case_costs` reads the bounds of the cases as
signed, so it accepts a range of an unsigned type of two host words that goes
beyond the sign bit, whatever its lower bound is.
-/

namespace GccCil.Gcc.Switch

open GccCil.Lib GccCil.Lib.LinkedTree GccCil.Lib.JumpCode GccCil.Lib.JumpCode.Emitter

variable {α Label : Type}

section Costs

variable {hostBits : Nat}

/-- The cost table is read inside its bounds: by the estimate, and for the ends
of every case when the estimate accepts the cases. -/
def CostsInTable (hostBits : Nat) (list : List (CaseNode α Label)) : Prop :=
  (estimateCaseCosts hostBits list).isSome = true ∧
    (estimateCaseCosts hostBits list = some true →
      ∀ node ∈ list, (nodeCost hostBits node).isSome = true)

instance (list : List (CaseNode α Label)) : Decidable (CostsInTable hostBits list) := by
  unfold CostsInTable
  infer_instance

theorem costTable_treeIntCstLow (value : Int) :
    costTable hostBits (treeIntCstLow hostBits value) = costTable hostBits value := by
  rw [costTable, costTable, treeIntCstLow, Int.emod_add_emod]

theorem scanCosts_true {last i : Int} {fuel : Nat}
    (accepted : scanCosts hostBits last fuel i = some true) {char : Int} (lower : i ≤ char)
    (upper : char ≤ last) : ∃ cost, costTable hostBits char = some cost ∧ 0 ≤ cost := by
  induction fuel generalizing i with
  | zero => cases accepted
  | succ fuel ih =>
    rw [scanCosts, if_neg (by omega)] at accepted
    obtain ⟨cost, isCost, accepted⟩ := Option.bind_eq_some_iff.mp accepted
    split at accepted
    · cases accepted
    · rcases eq_or_lt_of_le lower with rfl | later
      · exact ⟨cost, isCost, by omega⟩
      · exact ih accepted later

theorem estimateCaseCosts_true {list : List (CaseNode α Label)}
    (accepted : estimateCaseCosts hostBits list = some true) :
    ∀ node ∈ list, ¬ intCstLt hostBits node.low (-1) ∧ ¬ intCstLt hostBits 127 node.high ∧
      scanCosts hostBits (wrap false hostBits node.high) 130
        (wrap false 32 (wrap false hostBits node.low)) = some true := by
  induction list with
  | nil => simp
  | cons first rest ih =>
    rw [estimateCaseCosts] at accepted
    split at accepted
    · cases accepted
    rename_i text
    obtain ⟨suitable, scanned, accepted⟩ := Option.bind_eq_some_iff.mp accepted
    cases suitable with
    | false => cases accepted
    | true =>
      intro node member
      rcases List.mem_cons.mp member with rfl | member
      · exact ⟨fun low => text (.inl low), fun high => text (.inr high), scanned⟩
      · exact ih accepted node member

def Plain (hostBits : Nat) (value : Int) : Prop := wrap false (2 * hostBits) value = value

theorem wrap_char {w : Nat} (wide : 32 ≤ w) {value : Int} (lower : -1 ≤ value)
    (upper : value ≤ 127) : wrap false w value = value := by
  apply wrap_eq_of_inRange
  have modulus : 2 ^ 32 ≤ 2 ^ w := Nat.pow_le_pow_right (by omega) wide
  rw [inRange_signed]
  omega

theorem nodeCost_of_plain (wide : 32 ≤ hostBits) {node : CaseNode α Label}
    (up : node.low ≤ node.high) (plainLow : Plain hostBits node.low)
    (plainHigh : Plain hostBits node.high)
    (accepted : ¬ intCstLt hostBits node.low (-1) ∧ ¬ intCstLt hostBits 127 node.high ∧
      scanCosts hostBits (wrap false hostBits node.high) 130
        (wrap false 32 (wrap false hostBits node.low)) = some true) :
    ∃ cost, nodeCost hostBits node = some cost ∧ 0 ≤ cost := by
  obtain ⟨low, high, scanned⟩ := accepted
  unfold intCstLt at low high
  rw [plainLow, wrap_char (by omega) (by decide) (by decide)] at low
  rw [plainHigh, wrap_char (by omega) (by decide) (by decide)] at high
  rw [wrap_char wide (by omega) (by omega), wrap_char wide (by omega) (by omega),
    wrap_char (le_refl 32) (by omega) (by omega)] at scanned
  obtain ⟨lowCost, isLowCost, lowNonneg⟩ := scanCosts_true scanned (le_refl node.low) up
  obtain ⟨highCost, isHighCost, highNonneg⟩ := scanCosts_true scanned up (le_refl node.high)
  rw [nodeCost, costTable_treeIntCstLow, costTable_treeIntCstLow, isLowCost, isHighCost]
  split
  · exact ⟨lowCost, rfl, lowNonneg⟩
  · exact ⟨highCost + lowCost, rfl, by omega⟩

section Constants

variable {type : IndexType} (host : type.precision ≤ 2 * hostBits)
include host

theorem plain_of_signed (signed : type.unsigned = false) {value : Int}
    (contains : type.Contains value) : Plain hostBits value := by
  have fits := contains.fits host
  rw [signed] at fits
  exact wrap_eq_of_inRange fits

theorem contains_lt (unsigned : type.unsigned = true) {value : Int}
    (contains : type.Contains value) : 0 ≤ value ∧ value < (2 ^ (2 * hostBits) : Nat) := by
  have fits := contains.fits host
  rwa [unsigned, inRange_unsigned] at fits

theorem plain_of_lt_half (unsigned : type.unsigned = true) {value : Int}
    (contains : type.Contains value) (small : 2 * value < (2 ^ (2 * hostBits) : Nat)) :
    Plain hostBits value := by
  have bounds := contains_lt host unsigned contains
  apply wrap_eq_of_inRange
  rw [inRange_signed]
  omega

theorem wrap_of_half_le (unsigned : type.unsigned = true) {value : Int}
    (contains : type.Contains value) (large : (2 ^ (2 * hostBits) : Nat) ≤ 2 * value) :
    wrap false (2 * hostBits) value = value - (2 ^ (2 * hostBits) : Nat) := by
  have bounds := contains_lt host unsigned contains
  have congruent : value ≡ value - (2 ^ (2 * hostBits) : Nat) [ZMOD (2 ^ (2 * hostBits) : Nat)] := by
    rw [Int.modEq_iff_dvd]
    exact ⟨-1, by ring⟩
  rw [wrap_congr false congruent]
  apply wrap_eq_of_inRange
  rw [inRange_signed]
  omega

theorem plain_of_two_later (positive : 0 < hostBits) {low high next last : Int} (containsLow : type.Contains low)
    (containsHigh : type.Contains high) (containsNext : type.Contains next)
    (containsLast : type.Contains last) (up : low ≤ high) (first : high < next)
    (second : next < last) (accepted : ¬ intCstLt hostBits next (-1)) :
    Plain hostBits low ∧ Plain hostBits high := by
  cases unsigned : type.unsigned with
  | false =>
    exact ⟨plain_of_signed host unsigned containsLow,
      plain_of_signed host unsigned containsHigh⟩
  | true =>
    have small : 2 * high < (2 ^ (2 * hostBits) : Nat) := by
      by_contra large
      have bounds := contains_lt host unsigned containsLast
      have minusOne : wrap false (2 * hostBits) (-1) = -1 := by
        apply wrap_eq_of_inRange
        have modulus : 2 ^ 1 ≤ 2 ^ (2 * hostBits) := Nat.pow_le_pow_right (by omega) (by omega)
        rw [inRange_signed]
        omega
      unfold intCstLt at accepted
      rw [wrap_of_half_le host unsigned containsNext (by omega), minusOne] at accepted
      omega
    exact ⟨plain_of_lt_half host unsigned containsLow (by omega),
      plain_of_lt_half host unsigned containsHigh small⟩

end Constants

variable {type : IndexType} {nodes : Nodes α Label}

theorem OrderedCases.contains {list : List α} (cases : OrderedCases type nodes list) {x : α}
    (member : x ∈ list) : type.Contains (nodes x).low ∧ type.Contains (nodes x).high := by
  have up := cases.nonempty x member
  have lowest := cases.lowest x member
  have highest := cases.highest x member
  exact ⟨⟨lowest, up.trans highest⟩, ⟨lowest.trans up, highest⟩⟩

theorem affordable_of_costsInTable (wide : 32 ≤ hostBits) (host : type.precision ≤ 2 * hostBits)
    {list : List α} (cases : OrderedCases type nodes list)
    (accepted : estimateCaseCosts hostBits (list.map nodes) = some true)
    (inTable : ∀ node ∈ list.map nodes, (nodeCost hostBits node).isSome = true) :
    Affordable hostBits (list.map nodes) := by
  intro before node after equal
  have memberNode : node ∈ list.map nodes := by rw [equal]; simp
  obtain ⟨cost, isCost⟩ := Option.isSome_iff_exists.mp (inTable node memberNode)
  refine ⟨cost, isCost, fun long => ?_⟩
  obtain ⟨first, others, rfl, rfl, isTail⟩ := List.map_eq_append_iff.mp equal
  obtain ⟨x, rest, rfl, rfl, rfl⟩ := List.map_eq_cons_iff.mp isTail
  obtain ⟨y, z, rest, rfl⟩ : ∃ y z tail, rest = y :: z :: tail := by
    cases rest with
    | nil => simp at long
    | cons y rest =>
      cases rest with
      | nil => simp at long
      | cons z rest => exact ⟨y, z, rest, rfl⟩
  have ordered := (List.pairwise_append.mp cases.ordered).2.1
  have beforeY := (List.pairwise_cons.mp ordered).1 y (by simp)
  have beforeZ := (List.pairwise_cons.mp (List.pairwise_cons.mp ordered).2).1 z (by simp)
  obtain ⟨lowX, highX⟩ := cases.contains (show x ∈ _ by simp)
  have upX := cases.nonempty x (by simp)
  have upY := cases.nonempty y (by simp)
  obtain ⟨plainLow, plainHigh⟩ := plain_of_two_later host (by omega) lowX highX
    (cases.contains (show y ∈ _ by simp)).1 (cases.contains (show z ∈ _ by simp)).1 upX beforeY
    (by omega) (estimateCaseCosts_true accepted (nodes y) (by simp)).1
  obtain ⟨cost', isCost', nonneg⟩ := nodeCost_of_plain wide upX plainLow plainHigh
    (estimateCaseCosts_true accepted (nodes x) memberNode)
  rw [isCost] at isCost'
  cases isCost'
  exact nonneg

end Costs

theorem OrderedCases.congr {type : IndexType} {nodes after : Nodes α Label} {list : List α}
    (same : ∀ x, (after x).content = (nodes x).content) (cases : OrderedCases type nodes list) :
    OrderedCases type after list := by
  have low := fun x => CaseNode.low_eq (same x)
  have high := fun x => CaseNode.high_eq (same x)
  refine ⟨?_, ?_, ?_, ?_⟩
  · simpa only [low, high] using cases.ordered
  · simpa only [low, high] using cases.nonempty
  · simpa only [low] using cases.lowest
  · simpa only [high] using cases.highest

theorem classify_congr {nodes after : Nodes α Label} {default : Label}
    (same : ∀ x, (after x).content = (nodes x).content) (list : List α) (value : Int) :
    classify after default list value = classify nodes default list value := by
  have low := fun x => CaseNode.low_eq (same x)
  have high := fun x => CaseNode.high_eq (same x)
  have label := fun x => CaseNode.codeLabel_eq (same x)
  simp only [classify, low, high, label]

theorem emitted_run {w : Nat} {type : IndexType} {default : Label}
    {emitter : Emitter (Test w) Label} {condition : Int → Prop} {target : Int → Label}
    (sends : Sends type default emitter condition target) :
    ∃ program last, (emitter ++ emitJump w default) 0 = some (program, last) ∧
      ∀ value, condition value →
        run (Test.holds type.unsigned) program (BitVec.ofInt w value) program.length program =
          some (target value) := by
  obtain ⟨code, last, emits, _, _, leads⟩ := sends 0
  refine ⟨code ++ [.jump (.code default)], last, append_eq_some emits rfl, fun value meets => ?_⟩
  have delivered := leads [] [.jump (.code default)] value meets (by simp [placed])
    (Leads.jump default [])
  have ends := delivered _ (le_refl _)
  rwa [run_view] at ends

section Expansion

variable [DecidableEq α]

/-- The switch is expanded: the tree has the cases in order and right parent
links, and its code takes every index value to the label of its case. -/
def ExpandsRight (hostBits w : Nat) (type : IndexType) (enumeral : Bool) (fuel : Nat)
    (nodes : Nodes α Label) (list : List α) (default : Label) : Prop :=
  ∃ after t program,
    expandDecisionTree hostBits w type enumeral fuel nodes list.head? default =
      some (after, root t, program) ∧
    inorder t = list ∧ TreeAt after none t ∧ (∀ x, (after x).content = (nodes x).content) ∧
    ∀ value, type.Contains value →
      run (Test.holds type.unsigned) program (BitVec.ofInt w value) program.length program =
        some (classify nodes default list value)

theorem nodeCost_of_balance {hostBits fuel : Nat} {nodes : Nodes α Label} {list : List α}
    {parent : Option α} {result : Nodes α Label × Option α}
    (linked : Chain (fun x => (nodes x).right) list) (enough : list.length ≤ fuel)
    (balanced : balanceCaseNodes hostBits true (fuel + 1) nodes list.head? parent = some result) :
    ∀ node ∈ list.map nodes, (nodeCost hostBits node).isSome = true := by
  cases list with
  | nil => simp
  | cons head rest =>
    have entries := follow_chain linked enough
    rw [List.head?_cons] at entries balanced
    simp only [balanceCaseNodes, entries, Option.bind_eq_bind, Option.bind_some,
      Bool.true_and] at balanced
    split at balanced
    · cases balanced
    · rename_i total
      have isSome : (totalCost hostBits ((head :: rest).map nodes)).isSome = true := by
        rw [Option.isSome_iff_ne_none]
        exact fun isNone => total (by rw [isNone]; rfl)
      obtain ⟨cost, isTotal⟩ := Option.isSome_iff_exists.mp isSome
      obtain ⟨costs, weighs, _⟩ := totalCost_eq_some isTotal
      intro node member
      have inCosts : nodeCost hostBits node ∈ costs.map some := by
        rw [← weighs]
        exact List.mem_map_of_mem member
      obtain ⟨cost, _, isCost⟩ := List.mem_map.mp inCosts
      rw [← isCost]
      rfl

/-- A switch over an ordered list of disjoint cases is expanded right if and only
if the cost table is not used or read inside its bounds. -/
theorem expandsRight_iff {hostBits w : Nat} {type : IndexType} {enumeral : Bool} {fuel : Nat}
    {nodes : Nodes α Label} {list : List α} {default : Label} (wide : 32 ≤ hostBits)
    (host : type.precision ≤ 2 * hostBits) (narrow : type.precision ≤ w)
    (enough : list.length ≤ fuel) (caseList : CaseList nodes list)
    (cases : OrderedCases type nodes list) :
    ExpandsRight hostBits w type enumeral fuel nodes list default ↔
      enumeral = true ∨ CostsInTable hostBits (list.map nodes) := by
  have entries := follow_chain caseList.linked enough
  constructor
  · rintro ⟨after, t, program, expands, _⟩
    cases enumeral with
    | true => exact .inl rfl
    | false =>
      right
      simp only [expandDecisionTree, entries, Option.bind_eq_bind, Option.bind_some,
        Bool.false_eq_true, if_false] at expands
      obtain ⟨useCostTable, estimated, expands⟩ := Option.bind_eq_some_iff.mp expands
      refine ⟨by rw [estimated]; rfl, fun accepted => ?_⟩
      rw [accepted] at estimated
      cases estimated
      obtain ⟨balanced, isBalanced, _⟩ := Option.bind_eq_some_iff.mp expands
      exact nodeCost_of_balance caseList.linked enough isBalanced
  · intro condition
    obtain ⟨useCostTable, estimated, affordable⟩ : ∃ useCostTable,
        (if enumeral then some false else estimateCaseCosts hostBits (list.map nodes)) =
          some useCostTable ∧
        (useCostTable = true → Affordable hostBits (list.map nodes)) := by
      cases enumeral with
      | true => exact ⟨false, rfl, fun uses => absurd uses Bool.false_ne_true⟩
      | false =>
        obtain ⟨isSome, inTable⟩ := condition.resolve_left Bool.false_ne_true
        obtain ⟨accepted, estimated⟩ := Option.isSome_iff_exists.mp isSome
        refine ⟨accepted, estimated, fun uses => ?_⟩
        rw [uses] at estimated
        exact affordable_of_costsInTable wide host cases estimated (inTable estimated)
    obtain ⟨after, t, isBalanced, balanced⟩ := balanceCaseNodes_spec (fuel + 1) none
      (Nat.lt_succ_of_le enough) caseList affordable
    have same := balanced.relinks.content
    have ordered := balanced.inorder
    cases t with
    | nil =>
      refine ⟨after, .nil, [.jump (.code default)], ?_, ordered, balanced.tree, same, ?_⟩
      · simp only [expandDecisionTree, entries, Option.bind_eq_bind, Option.bind_some, estimated,
          isBalanced, root_nil]
      · intro value _
        rw [← ordered]
        rfl
    | node x l r =>
      subst ordered
      have noAncestors : TreeAt after ([] : List α).head? (.node x l r) := balanced.tree
      have sends : Sends type default (emitCaseNodes w type after default fuel fuel x)
          (Reaches type after [] (inorder (.node x l r)))
          (classify after default (inorder (.node x l r))) :=
        emitCaseNodes_sends narrow fuel noAncestors trivial (by simpa using enough) enough
          (cases.congr same)
      obtain ⟨program, last, emits, runs⟩ := emitted_run sends
      refine ⟨after, .node x l r, program, ?_, rfl, balanced.tree, same, fun value contains => ?_⟩
      · simp only [expandDecisionTree, entries, Option.bind_eq_bind, Option.bind_some, estimated,
          isBalanced, root_node, emits]
      · rw [runs value ⟨contains, by simp [SameSide]⟩, classify_congr same]

end Expansion

/-- The list that `add_case_node` makes of bounds and labels, at the addresses
from zero on. -/
def caseNodes (cases : List (Int × Int × Nat)) : Nodes Nat Nat := fun x =>
  { left := none
    right := if x + 1 < cases.length then some (x + 1) else none
    parent := none
    low := (cases.getD x (0, 0, 0)).1
    high := (cases.getD x (0, 0, 0)).2.1
    codeLabel := (cases.getD x (0, 0, 0)).2.2 }

/-- `unsigned long long`. -/
def unsigned64 : IndexType where
  unsigned := true
  precision := 64
  minValue := 0
  maxValue := 2 ^ 64 - 1
  minFits := by decide
  maxFits := by decide

/-- `case 0x40000000 ... 0xffffffffffffffff:`. -/
def hugeRange : Nodes Nat Nat := caseNodes [(2 ^ 30, 2 ^ 64 - 1, 1)]

def smallCases : Nodes Nat Nat :=
  caseNodes [(9, 9, 1), (32, 32, 1), (48, 57, 2), (65, 90, 3), (97, 122, 3)]

/-- On a host with words of 32 bits the estimate takes the range for text, and
its lower end is looked up far outside the cost table. -/
theorem hugeRange_not_expandsRight :
    CaseList hugeRange [0] ∧ OrderedCases unsigned64 hugeRange [0] ∧
      ¬ ExpandsRight 32 64 unsigned64 false 1 hugeRange [0] 0 := by
  refine ⟨⟨by decide, ⟨rfl, trivial⟩, by decide⟩, ⟨by simp, by decide, by decide, by decide⟩, ?_⟩
  rintro ⟨after, t, program, expands, _⟩
  have fault : (expandDecisionTree 32 64 unsigned64 false 1 hugeRange (some 0) 0).isNone = true := by
    decide
  rw [List.head?_cons] at expands
  rw [expands] at fault
  cases fault

/-- A switch over text is expanded right. -/
theorem smallCases_expandsRight :
    ExpandsRight 32 64 unsigned64 false 5 smallCases [0, 1, 2, 3, 4] 0 := by
  have caseList : CaseList smallCases [0, 1, 2, 3, 4] :=
    ⟨by decide, ⟨rfl, rfl, rfl, rfl, rfl, trivial⟩, by decide⟩
  have cases : OrderedCases unsigned64 smallCases [0, 1, 2, 3, 4] :=
    ⟨by decide, by decide, by decide, by decide⟩
  exact (expandsRight_iff (by decide) (by decide) (by decide) (by decide) caseList cases).mpr
    (.inr (by decide))

end GccCil.Gcc.Switch
