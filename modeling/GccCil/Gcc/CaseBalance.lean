import Mathlib.Tactic
import GccCil.Lib.LinkedTree
import GccCil.Gcc.CaseNodes

/-!
# Balancing a list of case nodes

`balance_case_nodes` turns the list into a tree whose in-order sequence is the
list and whose links, the parents included, are those of the tree.  The only
reads that can go wrong are those of the cost table.
-/

namespace GccCil.Gcc.Switch

open GccCil.Lib GccCil.Lib.LinkedTree

variable {α Label : Type}

def CaseNode.content (node : CaseNode α Label) : Int × Int × Label :=
  (node.low, node.high, node.codeLabel)

theorem CaseNode.low_eq {node other : CaseNode α Label} (same : node.content = other.content) :
    node.low = other.low := congrArg Prod.fst same

theorem CaseNode.high_eq {node other : CaseNode α Label} (same : node.content = other.content) :
    node.high = other.high := congrArg (fun content => content.2.1) same

theorem CaseNode.codeLabel_eq {node other : CaseNode α Label}
    (same : node.content = other.content) : node.codeLabel = other.codeLabel :=
  congrArg (fun content => content.2.2) same

structure Relinks (list : List α) (nodes after : Nodes α Label) : Prop where
  outside : ∀ x ∉ list, after x = nodes x
  content : ∀ x, (after x).content = (nodes x).content

theorem Relinks.refl (list : List α) (nodes : Nodes α Label) : Relinks list nodes nodes :=
  ⟨fun _ _ => rfl, fun _ => rfl⟩

theorem Relinks.trans {list : List α} {nodes middle after : Nodes α Label}
    (first : Relinks list nodes middle) (second : Relinks list middle after) :
    Relinks list nodes after where
  outside := fun x notIn => (second.outside x notIn).trans (first.outside x notIn)
  content := fun x => (second.content x).trans (first.content x)

theorem Relinks.mono {list larger : List α} {nodes after : Nodes α Label}
    (relinks : Relinks list nodes after) (subset : list ⊆ larger) : Relinks larger nodes after where
  outside := fun x notIn => relinks.outside x fun inList => notIn (subset inList)
  content := relinks.content

def TreeAt (nodes : Nodes α Label) (above : Option α) (t : BinaryTree α) : Prop :=
  LinkedTree (fun x => (nodes x).left) (fun x => (nodes x).right) (fun x => (nodes x).parent) above t

theorem TreeAt.congr {nodes after : Nodes α Label} {above : Option α} {t : BinaryTree α}
    (same : ∀ x ∈ inorder t, after x = nodes x) (tree : TreeAt nodes above t) :
    TreeAt after above t := by
  apply LinkedTree.congr _ _ _ tree
  · intro x member
    rw [same x member]
  · intro x member
    rw [same x member]
  · intro x member
    rw [same x member]

theorem follow_chain {next : α → Option α} {list : List α} (linked : Chain next list) {fuel : Nat}
    (enough : list.length ≤ fuel) : follow next fuel list.head? = some list := by
  induction list generalizing fuel with
  | nil => cases fuel <;> rfl
  | cons x rest ih =>
    cases fuel with
    | zero => cases enough
    | succ fuel =>
      rw [List.head?_cons, follow, linked.1,
        ih linked.2 (Nat.le_of_succ_le_succ enough), Option.map_some]

section Costs

variable {hostBits : Nat}

theorem nodeCost_congr {node other : CaseNode α Label} (same : node.content = other.content) :
    nodeCost hostBits node = nodeCost hostBits other := by
  unfold nodeCost
  rw [CaseNode.low_eq same, CaseNode.high_eq same]

/-- Every node has a cost, and none but the last two has a negative one. -/
def Affordable (hostBits : Nat) (list : List (CaseNode α Label)) : Prop :=
  ∀ before node after, list = before ++ node :: after →
    ∃ cost, nodeCost hostBits node = some cost ∧ (2 ≤ after.length → 0 ≤ cost)

theorem Affordable.before {first second : List (CaseNode α Label)}
    (affordable : Affordable hostBits (first ++ second)) : Affordable hostBits first := by
  intro before node after equal
  obtain ⟨cost, isCost, nonneg⟩ := affordable before node (after ++ second) (by simp [equal])
  exact ⟨cost, isCost, fun long => nonneg (by rw [List.length_append]; omega)⟩

theorem Affordable.after {first second : List (CaseNode α Label)}
    (affordable : Affordable hostBits (first ++ second)) : Affordable hostBits second := by
  intro before node after equal
  exact affordable (first ++ before) node after (by simp [equal])

theorem Affordable.totalCost_isSome {list : List (CaseNode α Label)}
    (affordable : Affordable hostBits list) : ∃ cost, totalCost hostBits list = some cost := by
  induction list with
  | nil => exact ⟨0, rfl⟩
  | cons node rest ih =>
    obtain ⟨cost, isCost, _⟩ := affordable [] node rest rfl
    have affordableRest : Affordable hostBits rest :=
      Affordable.after (show Affordable hostBits ([node] ++ rest) from affordable)
    obtain ⟨costs, isTotal⟩ := ih affordableRest
    exact ⟨cost + costs, by rw [totalCost, isCost, Option.bind_some, isTotal, Option.map_some]⟩

theorem Affordable.congr {nodes after : Nodes α Label} {list : List α}
    (same : ∀ x, (after x).content = (nodes x).content)
    (affordable : Affordable hostBits (list.map nodes)) : Affordable hostBits (list.map after) := by
  intro first node second equal
  obtain ⟨before, others, rfl, rfl, isTail⟩ := List.map_eq_append_iff.mp equal
  obtain ⟨x, rest, rfl, rfl, rfl⟩ := List.map_eq_cons_iff.mp isTail
  obtain ⟨cost, isCost, nonneg⟩ := affordable (before.map nodes) (nodes x) (rest.map nodes) (by simp)
  refine ⟨cost, ?_, ?_⟩
  · rw [nodeCost_congr (same x), isCost]
  · simpa using nonneg

theorem skipNodes_isSome {weight : CaseNode α Label → Option Int} {list : List (CaseNode α Label)}
    {weights : List Int} {amount : Int} (weighs : list.map weight = weights.map some)
    (reached : amount ≤ weights.sum) (nonempty : list ≠ []) :
    ∃ moved, skipNodes weight amount list = some moved ∧ moved < list.length := by
  induction list generalizing weights amount with
  | nil => exact absurd rfl nonempty
  | cons node rest ih =>
    obtain ⟨cost, weights, rfl⟩ : ∃ cost rest, weights = cost :: rest := by
      cases weights with
      | nil => simp at weighs
      | cons cost weights => exact ⟨cost, weights, rfl⟩
    rw [List.map_cons, List.map_cons, List.cons.injEq] at weighs
    rw [List.sum_cons] at reached
    rw [skipNodes, weighs.1, Option.bind_some]
    by_cases stops : amount - cost ≤ 0
    · exact ⟨0, if_pos stops, by simp⟩
    · have nonempty : rest ≠ [] := by
        rintro rfl
        have none_ : weights = [] := by simpa using weighs.2.symm
        rw [none_, List.sum_nil] at reached
        omega
      obtain ⟨moved, skips, inside⟩ := ih weighs.2
        (show amount - cost ≤ weights.sum by omega) nonempty
      refine ⟨moved + 1, ?_, by simpa using inside⟩
      rw [if_neg stops, skips, Option.map_some]

theorem totalCost_eq_some {list : List (CaseNode α Label)} {cost : Int}
    (total : totalCost hostBits list = some cost) :
    ∃ costs : List Int, list.map (nodeCost hostBits) = costs.map some ∧ costs.sum = cost := by
  induction list generalizing cost with
  | nil =>
    cases total
    exact ⟨[], rfl, rfl⟩
  | cons node rest ih =>
    simp only [totalCost, Option.bind_eq_some_iff, Option.map_eq_some_iff] at total
    obtain ⟨first, isFirst, others, isOthers, rfl⟩ := total
    obtain ⟨costs, weighs, rfl⟩ := ih isOthers
    exact ⟨first :: costs, by rw [List.map_cons, weighs, isFirst, List.map_cons], by simp⟩

theorem skipNodes_cost {list : List (CaseNode α Label)} (affordable : Affordable hostBits list)
    (long : 3 ≤ list.length) {cost : Int} (total : totalCost hostBits list = some cost) :
    ∃ moved, skipNodes (nodeCost hostBits) ((cost + 1).tdiv 2) list = some moved ∧
      moved < list.length := by
  obtain ⟨costs, weighs, rfl⟩ := totalCost_eq_some total
  have nonempty : list ≠ [] := by
    rintro rfl
    cases long
  rcases lt_or_ge 0 costs.sum with positive | small
  · apply skipNodes_isSome weighs _ nonempty
    rw [Int.tdiv_eq_ediv_of_nonneg (by omega)]
    omega
  · obtain ⟨node, rest, rfl⟩ := List.exists_cons_of_ne_nil nonempty
    obtain ⟨first, isFirst, nonneg⟩ := affordable [] node rest rfl
    have low : (costs.sum + 1).tdiv 2 ≤ Int.tdiv 1 2 :=
      Int.tdiv_le_tdiv (by decide) (by omega)
    have positive := nonneg (by simpa using long)
    refine ⟨0, ?_, by simp⟩
    rw [skipNodes, isFirst, Option.bind_some, if_pos]
    exact Int.sub_nonpos_of_le (low.trans positive)

theorem sum_rangeWeight (list : List (CaseNode α Label)) :
    (list.map rangeWeight).sum =
      ((list.length + list.countP fun node => node.low ≠ node.high : Nat) : Int) := by
  induction list with
  | nil => rfl
  | cons node rest ih =>
    rw [List.map_cons, List.sum_cons, ih, List.length_cons, List.countP_cons]
    by_cases single : node.low = node.high
    · simp only [rangeWeight, single, if_true]
      simp
      omega
    · simp only [rangeWeight, single, if_false]
      simp [single]
      omega

theorem skipNodes_range (list : List (CaseNode α Label)) (long : 4 ≤ list.length) :
    ∃ moved, skipNodes (fun node => some (rangeWeight node))
        ((list.length + (list.countP fun node => node.low ≠ node.high) + 1) / 2 : Nat) list =
          some moved ∧ 1 ≤ moved ∧ moved < list.length := by
  have nonempty : list ≠ [] := by
    rintro rfl
    cases long
  have weighs : list.map (fun node => some (rangeWeight node)) = (list.map rangeWeight).map some := by
    rw [List.map_map]
    rfl
  have reached : (((list.length + (list.countP fun node => node.low ≠ node.high) + 1) / 2 : Nat) :
      Int) ≤ (list.map rangeWeight).sum := by
    rw [sum_rangeWeight]
    omega
  obtain ⟨moved, skips, inside⟩ := skipNodes_isSome weighs reached nonempty
  refine ⟨moved, skips, Nat.pos_of_ne_zero fun zero => ?_, inside⟩
  obtain ⟨node, rest, rfl⟩ := List.exists_cons_of_ne_nil nonempty
  rw [zero, skipNodes, Option.bind_some, List.countP_cons] at skips
  rw [List.length_cons] at long skips
  by_cases single : node.low = node.high
  · rw [rangeWeight, if_pos single, if_neg] at skips
    · obtain ⟨later, _, isZero⟩ := Option.map_eq_some_iff.mp skips
      exact absurd isZero (Nat.succ_ne_zero later)
    · simp [single]
      omega
  · rw [rangeWeight, if_neg single, if_neg] at skips
    · obtain ⟨later, _, isZero⟩ := Option.map_eq_some_iff.mp skips
      exact absurd isZero (Nat.succ_ne_zero later)
    · simp [single]
      omega

theorem pivotIndex_spec {useCostTable : Bool} (list : List (CaseNode α Label))
    (affordable : useCostTable = true → Affordable hostBits list) (long : 3 ≤ list.length) :
    ∃ moved, pivotIndex hostBits useCostTable list = some moved ∧ moved < list.length ∧
      (moved = 0 → useCostTable = true) := by
  cases useCostTable with
  | true =>
    obtain ⟨cost, total⟩ := (affordable rfl).totalCost_isSome
    obtain ⟨moved, skips, inside⟩ := skipNodes_cost (affordable rfl) long total
    refine ⟨moved, ?_, inside, fun _ => rfl⟩
    rw [pivotIndex, if_pos rfl, total, Option.bind_some, skips]
  | false =>
    rw [pivotIndex, if_neg Bool.false_ne_true]
    by_cases three : list.length = 3
    · exact ⟨1, if_pos three, by omega, fun zero => absurd zero (by decide)⟩
    · obtain ⟨moved, skips, positive, inside⟩ :=
        skipNodes_range list (by omega)
      exact ⟨moved, by rw [if_neg three]; exact skips, inside, fun zero => by omega⟩

end Costs

/-- A list of case nodes as `add_case_node` makes it. -/
structure CaseList (nodes : Nodes α Label) (list : List α) : Prop where
  nodup : list.Nodup
  linked : Chain (fun x => (nodes x).right) list
  noLeft : ∀ x ∈ list, (nodes x).left = none

theorem CaseList.congr {nodes after : Nodes α Label} {list : List α}
    (caseList : CaseList nodes list) (same : ∀ x ∈ list, after x = nodes x) :
    CaseList after list where
  nodup := caseList.nodup
  linked := caseList.linked.congr fun x member => by rw [same x member]
  noLeft := fun x member => by rw [same x member, caseList.noLeft x member]

theorem exists_pivot {list : List α} {moved : Nat} (positive : moved ≠ 0)
    (inside : moved < list.length) :
    ∃ first before pivot second, list = first ++ before :: pivot :: second ∧
      moved = first.length + 1 := by
  obtain ⟨index, rfl⟩ := Nat.exists_eq_succ_of_ne_zero positive
  have lower : index < list.length := Nat.lt_of_succ_lt inside
  refine ⟨list.take index, list[index], list[index + 1], list.drop (index + 2), ?_, ?_⟩
  · rw [← List.drop_eq_getElem_cons inside, ← List.drop_eq_getElem_cons lower,
      List.take_append_drop]
  · rw [List.length_take, Nat.min_eq_left (Nat.le_of_lt lower)]

section Balance

variable [DecidableEq α]

section Writes

variable (nodes : Nodes α Label) (node : α)

theorem setLeft_of_ne (left : Option α) {x : α} (other : x ≠ node) :
    setLeft nodes node left x = nodes x := Function.update_of_ne other _ _

theorem setRight_of_ne (right : Option α) {x : α} (other : x ≠ node) :
    setRight nodes node right x = nodes x := Function.update_of_ne other _ _

theorem setParent_of_ne (parent : Option α) {x : α} (other : x ≠ node) :
    setParent nodes node parent x = nodes x := Function.update_of_ne other _ _

@[simp] theorem setLeft_self (left : Option α) :
    setLeft nodes node left node = { nodes node with left := left } := Function.update_self ..

@[simp] theorem setRight_self (right : Option α) :
    setRight nodes node right node = { nodes node with right := right } := Function.update_self ..

@[simp] theorem setParent_self (parent : Option α) :
    setParent nodes node parent node = { nodes node with parent := parent } :=
  Function.update_self ..

theorem setLeft_eq_self {left : Option α} (same : (nodes node).left = left) :
    setLeft nodes node left = nodes := by
  rw [setLeft, ← same]
  exact Function.update_eq_self node nodes

theorem Relinks.of_update {list : List α} {nodes after : Nodes α Label} {node : α}
    (member : node ∈ list) (others : ∀ x ≠ node, after x = nodes x)
    (same : (after node).content = (nodes node).content) : Relinks list nodes after where
  outside := fun x notIn => others x fun equal => notIn (equal ▸ member)
  content := fun x => by
    by_cases equal : x = node
    · rw [equal, same]
    · rw [others x equal]

end Writes

theorem relinks_setLeft {list : List α} (nodes : Nodes α Label) {node : α} (left : Option α)
    (member : node ∈ list) : Relinks list nodes (setLeft nodes node left) :=
  .of_update member (fun _ => setLeft_of_ne nodes node left) (by rw [setLeft_self]; rfl)

theorem relinks_setRight {list : List α} (nodes : Nodes α Label) {node : α} (right : Option α)
    (member : node ∈ list) : Relinks list nodes (setRight nodes node right) :=
  .of_update member (fun _ => setRight_of_ne nodes node right) (by rw [setRight_self]; rfl)

theorem relinks_setParent {list : List α} (nodes : Nodes α Label) {node : α} (parent : Option α)
    (member : node ∈ list) : Relinks list nodes (setParent nodes node parent) :=
  .of_update member (fun _ => setParent_of_ne nodes node parent) (by rw [setParent_self]; rfl)

theorem fillParents_spec {nodes : Nodes α Label} (parent : Option α) {list : List α}
    (caseList : CaseList nodes list) :
    TreeAt (fillParents nodes parent list) parent (spine list) ∧
      Relinks list nodes (fillParents nodes parent list) := by
  induction list generalizing nodes parent with
  | nil => exact ⟨trivial, .refl _ _⟩
  | cons x rest ih =>
    obtain ⟨fresh, nodup⟩ := List.nodup_cons.mp caseList.nodup
    have same : ∀ y ∈ rest, setParent nodes x parent y = nodes y :=
      fun y member => setParent_of_ne nodes x parent fun equal => fresh (equal ▸ member)
    have rest_ : CaseList nodes rest :=
      ⟨nodup, caseList.linked.2, fun y member => caseList.noLeft y (List.mem_cons_of_mem _ member)⟩
    obtain ⟨tree, relinks⟩ := ih (some x) (rest_.congr same)
    have atHead : fillParents nodes parent (x :: rest) x = setParent nodes x parent x :=
      relinks.outside x fresh
    refine ⟨⟨?_, ?_, ?_, trivial, tree⟩, ?_⟩
    · dsimp only
      rw [atHead, setParent_self]
    · dsimp only
      rw [atHead, setParent_self]
      exact caseList.noLeft x List.mem_cons_self
    · dsimp only
      rw [atHead, setParent_self, root_spine]
      exact caseList.linked.1
    · exact (relinks_setParent nodes parent List.mem_cons_self).trans
        (relinks.mono (List.subset_cons_self _ _))

theorem CaseList.split {nodes : Nodes α Label} {first second : List α} {before pivot : α}
    (caseList : CaseList nodes (first ++ before :: pivot :: second)) (left parent : Option α) :
    CaseList (setLeft (setParent (setRight nodes before none) pivot parent) pivot left)
        (first ++ [before]) ∧ CaseList nodes second := by
  have nodup := caseList.nodup
  have regroup : first ++ before :: pivot :: second = (first ++ [before]) ++ pivot :: second := by
    simp
  rw [regroup] at nodup
  have distinct : ∀ x ∈ first ++ [before], x ≠ pivot := fun x member equal =>
    (List.nodup_append.mp nodup).2.2 x member pivot List.mem_cons_self equal
  have atPart : ∀ x ∈ first ++ [before],
      setLeft (setParent (setRight nodes before none) pivot parent) pivot left x =
        setRight nodes before none x := by
    intro x member
    rw [setLeft_of_ne _ _ _ (distinct x member), setParent_of_ne _ _ _ (distinct x member)]
  have firstNodup : (first ++ [before]).Nodup := (List.nodup_append.mp nodup).1
  refine ⟨CaseList.congr ⟨firstNodup, ?_, ?_⟩ atPart, ?_⟩
  · have linked := caseList.linked
    rw [regroup] at linked
    refine Chain.congr (fun x member => ?_) (Chain.cut firstNodup linked)
    rw [List.getLast?_concat, setAt_some]
    by_cases equal : x = before
    · rw [equal, setRight_self, Function.update_self]
    · rw [setRight_of_ne _ _ _ equal, Function.update_of_ne equal]
  · intro x member
    have noLeft := caseList.noLeft x (by rw [regroup]; exact List.mem_append_left _ member)
    by_cases equal : x = before
    · rw [equal, setRight_self]
      rwa [equal] at noLeft
    · rwa [setRight_of_ne _ _ _ equal]
  · refine ⟨(List.nodup_cons.mp (List.nodup_append.mp nodup).2.1).2, ?_, fun x member => ?_⟩
    · have linked := caseList.linked
      rw [regroup] at linked
      exact linked.suffix.2
    · exact caseList.noLeft x (by simp [member])

structure Balanced (list : List α) (nodes : Nodes α Label) (above : Option α)
    (after : Nodes α Label) (t : BinaryTree α) : Prop where
  inorder : inorder t = list
  tree : TreeAt after above t
  relinks : Relinks list nodes after

theorem relinks_pivot {list : List α} (nodes : Nodes α Label) {before pivot : α}
    (left parent : Option α) (beforeIn : before ∈ list) (pivotIn : pivot ∈ list) :
    Relinks list nodes
      (setLeft (setParent (setRight nodes before none) pivot parent) pivot left) :=
  (relinks_setRight nodes none beforeIn).trans
    ((relinks_setParent _ parent pivotIn).trans (relinks_setLeft _ left pivotIn))

theorem rest_untouched {nodes middle : Nodes α Label} {first second : List α} {before pivot : α}
    {parent left left' : Option α} (nodup : (first ++ before :: pivot :: second).Nodup)
    (relinks : Relinks (first ++ [before])
      (setLeft (setParent (setRight nodes before none) pivot parent) pivot left) middle) :
    (∀ x ∈ second, setLeft middle pivot left' x = nodes x) ∧
      (middle pivot).right = (nodes pivot).right := by
  rw [show first ++ before :: pivot :: second = (first ++ [before]) ++ pivot :: second by simp]
    at nodup
  obtain ⟨_, nodupRest, disjoint⟩ := List.nodup_append.mp nodup
  have beforeIn : before ∈ first ++ [before] := by simp
  constructor
  · intro x member
    have later : x ∈ pivot :: second := List.mem_cons_of_mem _ member
    have notPivot : x ≠ pivot := fun equal => (List.nodup_cons.mp nodupRest).1 (equal ▸ member)
    have notBefore : x ≠ before := fun equal => disjoint before beforeIn x later equal.symm
    rw [setLeft_of_ne _ _ _ notPivot,
      relinks.outside x (fun member => disjoint x member x later rfl),
      setLeft_of_ne _ _ _ notPivot, setParent_of_ne _ _ _ notPivot, setRight_of_ne _ _ _ notBefore]
  · have notBefore : pivot ≠ before :=
      fun equal => disjoint before beforeIn pivot List.mem_cons_self equal.symm
    rw [relinks.outside pivot fun member => disjoint pivot member pivot List.mem_cons_self rfl,
      setLeft_self, setParent_self, setRight_of_ne _ _ _ notBefore]

theorem Balanced.join {nodes middle after : Nodes α Label} {first second : List α} {before pivot : α}
    {parent left : Option α} {l r : BinaryTree α}
    (nodup : (first ++ before :: pivot :: second).Nodup)
    (balancedLeft : Balanced (first ++ [before])
      (setLeft (setParent (setRight nodes before none) pivot parent) pivot left) (some pivot)
      middle l)
    (balancedRight : Balanced second (setLeft middle pivot (root l)) (some pivot) after r) :
    Balanced (first ++ before :: pivot :: second) nodes parent (setRight after pivot (root r))
      (.node pivot l r) := by
  have regroup : first ++ before :: pivot :: second = (first ++ [before]) ++ pivot :: second := by
    simp
  rw [regroup] at nodup ⊢
  obtain ⟨_, nodupRest, disjoint⟩ := List.nodup_append.mp nodup
  have notLeft : pivot ∉ first ++ [before] :=
    fun member => disjoint pivot member pivot List.mem_cons_self rfl
  have notRight : pivot ∉ second := (List.nodup_cons.mp nodupRest).1
  have atPivot : (setLeft middle pivot (root l)) pivot =
      { setParent (setRight nodes before none) pivot parent pivot with left := root l } := by
    rw [setLeft_self, balancedLeft.relinks.outside pivot notLeft, setLeft_self]
  have pivotAfter : after pivot = { setParent (setRight nodes before none) pivot parent pivot with
      left := root l } := by
    rw [balancedRight.relinks.outside pivot notRight, atPivot]
  refine ⟨?_, ⟨?_, ?_, ?_, ?_, ?_⟩, ?_⟩
  · rw [inorder_node, balancedLeft.inorder, balancedRight.inorder]
  · dsimp only
    rw [setRight_self, pivotAfter, setParent_self]
  · dsimp only
    rw [setRight_self, pivotAfter]
  · dsimp only
    rw [setRight_self]
  · refine TreeAt.congr (fun x member => ?_) balancedLeft.tree
    rw [balancedLeft.inorder] at member
    have notPivot : x ≠ pivot := fun equal => notLeft (equal ▸ member)
    have notSecond : x ∉ second := fun inSecond =>
      disjoint x member x (List.mem_cons_of_mem _ inSecond) rfl
    rw [setRight_of_ne _ _ _ notPivot, balancedRight.relinks.outside x notSecond,
      setLeft_of_ne _ _ _ notPivot]
  · refine TreeAt.congr (fun x member => ?_) balancedRight.tree
    rw [balancedRight.inorder] at member
    exact setRight_of_ne _ _ _ fun equal => notRight (equal ▸ member)
  · have pivotIn : pivot ∈ (first ++ [before]) ++ pivot :: second := by simp
    have beforeIn : before ∈ (first ++ [before]) ++ pivot :: second := by simp
    refine (relinks_pivot nodes left parent beforeIn pivotIn).trans ?_
    refine (balancedLeft.relinks.mono (List.subset_append_left _ _)).trans ?_
    refine (relinks_setLeft _ (root l) pivotIn).trans ?_
    refine (balancedRight.relinks.mono ?_).trans (relinks_setRight _ (root r) pivotIn)
    exact fun x member => List.mem_append_right _ (List.mem_cons_of_mem _ member)

theorem balanceCaseNodes_spec {hostBits : Nat} {useCostTable : Bool} (fuel : Nat)
    {nodes : Nodes α Label} {list : List α} (parent : Option α) (enough : list.length < fuel)
    (caseList : CaseList nodes list)
    (affordable : useCostTable = true → Affordable hostBits (list.map nodes)) :
    ∃ after t, balanceCaseNodes hostBits useCostTable fuel nodes list.head? parent =
        some (after, root t) ∧ Balanced list nodes parent after t := by
  induction fuel generalizing nodes list parent with
  | zero => cases enough
  | succ fuel ih =>
    cases list with
    | nil => exact ⟨nodes, .nil, rfl, rfl, trivial, .refl _ _⟩
    | cons head rest =>
      have entries := follow_chain caseList.linked (Nat.le_of_lt_succ enough)
      have noFault : (useCostTable && (totalCost hostBits
          ((head :: rest).map nodes)).isNone) = false := by
        cases useCostTable with
        | false => rfl
        | true =>
          obtain ⟨cost, total⟩ := (affordable rfl).totalCost_isSome
          rw [total]
          rfl
      rw [List.head?_cons] at entries ⊢
      simp only [balanceCaseNodes, entries, Option.bind_eq_bind, Option.bind_some, noFault,
        Bool.false_eq_true, if_false]
      obtain ⟨spineTree, spineLinks⟩ := fillParents_spec parent caseList
      by_cases short : (head :: rest).length ≤ 2
      · rw [if_pos short]
        exact ⟨_, spine (head :: rest), rfl, inorder_spine _, spineTree, spineLinks⟩
      · rw [if_neg short]
        obtain ⟨moved, isMoved, inside, onlyCosts⟩ := pivotIndex_spec
          ((head :: rest).map nodes) affordable (by rw [List.length_map]; omega)
        rw [List.length_map] at inside
        rw [isMoved, Option.bind_some]
        by_cases lopsided : moved = 0
        · have noLeft : (setParent nodes head parent head).left = none := by
            rw [setParent_self]
            exact caseList.noLeft head List.mem_cons_self
          obtain ⟨less, rfl⟩ : ∃ less, fuel = less + 1 :=
            Nat.exists_eq_succ_of_ne_zero (by rintro rfl; simp at enough)
          rw [if_pos ⟨lopsided, onlyCosts lopsided⟩, noLeft, balanceCaseNodes, Option.bind_some,
            setLeft_eq_self _ _ noLeft]
          exact ⟨_, spine (head :: rest), rfl, inorder_spine _, spineTree, spineLinks⟩
        · rw [if_neg fun both => lopsided both.1, if_neg lopsided]
          obtain ⟨first, before, pivot, second, isList, rfl⟩ := exists_pivot lopsided inside
          have isBefore : (head :: rest)[first.length + 1 - 1]? = some before := by
            rw [isList]
            simp
          have isPivot : (head :: rest)[first.length + 1]? = some pivot := by
            rw [isList]
            simp
          have isHead : some head = (first ++ [before]).head? := by
            rw [← List.head?_cons (l := rest), isList]
            cases first <;> rfl
          rw [isBefore, isPivot, Option.bind_some, Option.bind_some, setLeft_self]
          rw [isList] at caseList enough affordable
          rw [List.length_append, List.length_cons, List.length_cons] at enough
          obtain ⟨leftList, rightList⟩ := caseList.split (some head) parent
          have affordableLeft : useCostTable = true →
              Affordable hostBits ((first ++ [before]).map nodes) := fun uses => by
            have whole : Affordable hostBits ((first ++ [before]).map nodes ++
                (pivot :: second).map nodes) := by simpa using affordable uses
            exact whole.before
          have affordableRight : useCostTable = true →
              Affordable hostBits (second.map nodes) := fun uses => by
            have whole : Affordable hostBits ((first ++ [before, pivot]).map nodes ++
                second.map nodes) := by simpa using affordable uses
            exact whole.after
          have beforeIn : before ∈ first ++ before :: pivot :: second := by simp
          have pivotIn : pivot ∈ first ++ before :: pivot :: second := by simp
          have pivoted := relinks_pivot nodes (some head) parent beforeIn pivotIn
          obtain ⟨middle, l, isLeft, balancedLeft⟩ := ih (some pivot)
            (by rw [List.length_append, List.length_singleton]; omega) leftList
            (fun uses => (affordableLeft uses).congr pivoted.content)
          rw [← isHead] at isLeft
          rw [isLeft, Option.bind_some]
          have nodup := caseList.nodup
          obtain ⟨untouched, atPivot⟩ := rest_untouched nodup balancedLeft.relinks
          have nextPivot : (setLeft middle pivot (root l) pivot).right = second.head? := by
            rw [setLeft_self]
            exact atPivot.trans caseList.linked.suffix.2.1
          obtain ⟨after, r, isRight, balancedRight⟩ := ih (some pivot)
            (by omega) (rightList.congr untouched)
            (fun uses => (affordableRight uses).congr fun x => by
              rw [(relinks_setLeft middle (root l) (List.mem_singleton_self pivot)).content x,
                balancedLeft.relinks.content x, pivoted.content x])
          refine ⟨setRight after pivot (root r), .node pivot l r, ?_, ?_⟩
          · dsimp only
            rw [nextPivot, isRight, Option.bind_some, root_node]
          · rw [isList]
            exact balancedLeft.join nodup balancedRight

end Balance

end GccCil.Gcc.Switch
