import Mathlib.Data.List.Basic

/-!
# Single inheritance

Nodes with at most one parent each and no cycle: the induction from a node's
parent to the node, and the list of a node and its ancestors.
-/

namespace GccCil.Lib

/-- A parent function without cycles: every parent has a smaller depth. -/
structure Forest (Node : Type) where
  parent : Node → Option Node
  depth : Node → Nat
  depth_parent : ∀ {child above}, parent child = some above → depth above < depth child

namespace Forest

variable {Node : Type}

def lineage (forest : Forest Node) (node : Node) : List Node :=
  node :: match _parent : forest.parent node with
    | some above => forest.lineage above
    | none => []
termination_by forest.depth node
decreasing_by exact forest.depth_parent ‹_›

variable (forest : Forest Node) {node above : Node}

theorem lineage_of_parent (parent : forest.parent node = some above) :
    forest.lineage node = node :: forest.lineage above := by
  rw [lineage]
  split <;> simp_all

theorem lineage_of_none (parent : forest.parent node = none) :
    forest.lineage node = [node] := by
  rw [lineage]
  split <;> simp_all

theorem self_mem_lineage (node : Node) : node ∈ forest.lineage node := by
  rw [lineage]
  exact List.mem_cons_self

theorem parent_mem_lineage (parent : forest.parent node = some above) :
    above ∈ forest.lineage node := by
  rw [forest.lineage_of_parent parent]
  exact List.mem_cons_of_mem _ (forest.self_mem_lineage above)

theorem parent_induction {motive : Node → Prop}
    (step : ∀ node, (∀ above, forest.parent node = some above → motive above) →
      motive node) (node : Node) : motive node := by
  induction depth : forest.depth node using Nat.strongRecOn generalizing node with
  | ind bound ih =>
    subst depth
    exact step node fun above parent =>
      ih _ (forest.depth_parent parent) above rfl

theorem forall_lineage {motive : Node → Prop}
    (step : ∀ node above, forest.parent node = some above → motive node → motive above)
    {ancestor : Node} (holds : motive node) (membership : ancestor ∈ forest.lineage node) :
    motive ancestor := by
  induction node using forest.parent_induction with
  | step node ih =>
    cases parent : forest.parent node with
    | none =>
      rw [forest.lineage_of_none parent, List.mem_singleton] at membership
      exact membership ▸ holds
    | some above =>
      rw [forest.lineage_of_parent parent] at membership
      rcases List.mem_cons.mp membership with rfl | inParent
      · exact holds
      · exact ih above parent (step node above parent holds) inParent

theorem mem_lineage_trans {ancestor middle : Node} (upper : ancestor ∈ forest.lineage middle)
    (lower : middle ∈ forest.lineage node) : ancestor ∈ forest.lineage node := by
  induction node using forest.parent_induction with
  | step node ih =>
    cases parent : forest.parent node with
    | none =>
      rw [forest.lineage_of_none parent, List.mem_singleton] at lower
      exact lower ▸ upper
    | some above =>
      rw [forest.lineage_of_parent parent] at lower
      rcases List.mem_cons.mp lower with rfl | inParent
      · exact upper
      · rw [forest.lineage_of_parent parent]
        exact List.mem_cons_of_mem _ (ih above parent inParent)

theorem mem_tail_trans {ancestor middle : Node} (upper : ancestor ∈ forest.lineage middle)
    (lower : middle ∈ (forest.lineage node).tail) : ancestor ∈ (forest.lineage node).tail := by
  cases parent : forest.parent node with
  | none => simp [forest.lineage_of_none parent] at lower
  | some above =>
    rw [forest.lineage_of_parent parent, List.tail_cons] at lower ⊢
    exact forest.mem_lineage_trans upper lower

theorem depth_le_of_mem_lineage {ancestor : Node}
    (membership : ancestor ∈ forest.lineage node) :
    forest.depth ancestor ≤ forest.depth node :=
  forest.forall_lineage (motive := fun other => forest.depth other ≤ forest.depth node)
    (fun _ _ parent bound => Nat.le_trans (Nat.le_of_lt (forest.depth_parent parent)) bound) (Nat.le_refl _)
    membership

theorem depth_lt_of_mem_tail {ancestor : Node}
    (membership : ancestor ∈ (forest.lineage node).tail) :
    forest.depth ancestor < forest.depth node := by
  cases parent : forest.parent node with
  | none => simp [forest.lineage_of_none parent] at membership
  | some above =>
    rw [forest.lineage_of_parent parent, List.tail_cons] at membership
    exact Nat.lt_of_le_of_lt (forest.depth_le_of_mem_lineage membership)
      (forest.depth_parent parent)

theorem not_mem_lineage_parent (parent : forest.parent node = some above) :
    node ∉ forest.lineage above := by
  intro membership
  have := forest.depth_parent parent
  have := forest.depth_le_of_mem_lineage membership
  omega

end Forest

end GccCil.Lib
