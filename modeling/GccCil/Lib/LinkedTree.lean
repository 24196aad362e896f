import Mathlib.Data.Tree.Basic
import GccCil.Lib.LinkedList

/-!
# Binary trees with parent links

Binary trees of addresses that three maps, `left`, `right` and `parent`, link.
A list that is linked through `right` alone is a tree without left sons.
-/

namespace GccCil.Lib

variable {α : Type}

namespace LinkedTree

def root : BinaryTree α → Option α
  | .nil => none
  | .node x _ _ => some x

def inorder : BinaryTree α → List α
  | .nil => []
  | .node x l r => inorder l ++ x :: inorder r

def spine : List α → BinaryTree α
  | [] => .nil
  | x :: rest => .node x .nil (spine rest)

@[simp] theorem root_nil : root (.nil : BinaryTree α) = none := rfl

@[simp] theorem root_node (x : α) (l r : BinaryTree α) : root (.node x l r) = some x := rfl

@[simp] theorem inorder_nil : inorder (.nil : BinaryTree α) = [] := rfl

@[simp] theorem inorder_node (x : α) (l r : BinaryTree α) :
    inorder (.node x l r) = inorder l ++ x :: inorder r := rfl

@[simp] theorem inorder_spine (l : List α) : inorder (spine l) = l := by
  induction l with
  | nil => rfl
  | cons x l ih => rw [spine, inorder_node, ih]; rfl

theorem root_spine (l : List α) : root (spine l) = l.head? := by
  cases l <;> rfl

theorem root_eq_none {t : BinaryTree α} : root t = none ↔ t = .nil := by
  cases t <;> simp

end LinkedTree

open LinkedTree

/-- The maps link the tree below the address `above`. -/
def LinkedTree (left right parent : α → Option α) : Option α → BinaryTree α → Prop
  | _, .nil => True
  | above, .node x l r =>
    parent x = above ∧ left x = root l ∧ right x = root r ∧
      LinkedTree left right parent (some x) l ∧ LinkedTree left right parent (some x) r

variable {left right parent left' right' parent' : α → Option α}

theorem LinkedTree.congr {above : Option α} {t : BinaryTree α}
    (sameLeft : ∀ x ∈ inorder t, left' x = left x) (sameRight : ∀ x ∈ inorder t, right' x = right x)
    (sameParent : ∀ x ∈ inorder t, parent' x = parent x)
    (linked : LinkedTree left right parent above t) : LinkedTree left' right' parent' above t := by
  induction t generalizing above with
  | nil => trivial
  | node x l r leftHypothesis rightHypothesis =>
    obtain ⟨isParent, isLeft, isRight, linkedLeft, linkedRight⟩ := linked
    rw [inorder_node, List.forall_mem_append, List.forall_mem_cons] at sameLeft sameRight sameParent
    refine ⟨sameParent.2.1.trans isParent, sameLeft.2.1.trans isLeft,
      sameRight.2.1.trans isRight, ?_, ?_⟩
    · exact leftHypothesis sameLeft.1 sameRight.1 sameParent.1 linkedLeft
    · exact rightHypothesis sameLeft.2.2 sameRight.2.2 sameParent.2.2 linkedRight

end GccCil.Lib
