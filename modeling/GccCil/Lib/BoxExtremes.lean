import Mathlib.Order.Monotone.Defs
import Mathlib.Order.Interval.Set.Defs

/-!
# Extremes over a box

A function of two arguments that is monotone or antitone in each of them,
whatever the other is, takes its extremes over a box at the corners.
-/

namespace GccCil.Lib

open Set

variable {α β γ : Type*} [Preorder α] [Preorder β] [Preorder γ]

def MonotoneEither (f : α → γ) (a b : α) : Prop :=
  MonotoneOn f (Icc a b) ∨ AntitoneOn f (Icc a b)

theorem MonotoneEither.ends {f : α → γ} {a b x : α} (monotone : MonotoneEither f a b)
    (lower : a ≤ x) (upper : x ≤ b) :
    (f a ≤ f x ∨ f b ≤ f x) ∧ (f x ≤ f a ∨ f x ≤ f b) := by
  have member : x ∈ Icc a b := ⟨lower, upper⟩
  have left : a ∈ Icc a b := ⟨le_refl a, lower.trans upper⟩
  have right : b ∈ Icc a b := ⟨lower.trans upper, le_refl b⟩
  rcases monotone with increasing | decreasing
  · exact ⟨.inl (increasing left member lower), .inr (increasing member right upper)⟩
  · exact ⟨.inr (decreasing member right upper), .inl (decreasing left member lower)⟩

variable {f : α → β → γ} {a b x : α} {c d y : β}

theorem box_corners (first : ∀ y, c ≤ y → y ≤ d → MonotoneEither (fun x => f x y) a b)
    (second : ∀ x, a ≤ x → x ≤ b → MonotoneEither (f x) c d) (lowerX : a ≤ x) (upperX : x ≤ b)
    (lowerY : c ≤ y) (upperY : y ≤ d) :
    (∃ x' y', (x' = a ∨ x' = b) ∧ (y' = c ∨ y' = d) ∧ f x' y' ≤ f x y) ∧
      ∃ x' y', (x' = a ∨ x' = b) ∧ (y' = c ∨ y' = d) ∧ f x y ≤ f x' y' := by
  have box : a ≤ b := lowerX.trans upperX
  obtain ⟨below, above⟩ := (first y lowerY upperY).ends lowerX upperX
  constructor
  · obtain ⟨x', isEnd, le⟩ : ∃ x', (x' = a ∨ x' = b) ∧ f x' y ≤ f x y := by
      rcases below with le | le
      · exact ⟨a, .inl rfl, le⟩
      · exact ⟨b, .inr rfl, le⟩
    have inBox : a ≤ x' ∧ x' ≤ b := by
      rcases isEnd with rfl | rfl
      · exact ⟨le_refl _, box⟩
      · exact ⟨box, le_refl _⟩
    rcases ((second x' inBox.1 inBox.2).ends lowerY upperY).1 with le' | le'
    · exact ⟨x', c, isEnd, .inl rfl, le'.trans le⟩
    · exact ⟨x', d, isEnd, .inr rfl, le'.trans le⟩
  · obtain ⟨x', isEnd, le⟩ : ∃ x', (x' = a ∨ x' = b) ∧ f x y ≤ f x' y := by
      rcases above with le | le
      · exact ⟨a, .inl rfl, le⟩
      · exact ⟨b, .inr rfl, le⟩
    have inBox : a ≤ x' ∧ x' ≤ b := by
      rcases isEnd with rfl | rfl
      · exact ⟨le_refl _, box⟩
      · exact ⟨box, le_refl _⟩
    rcases ((second x' inBox.1 inBox.2).ends lowerY upperY).2 with le' | le'
    · exact ⟨x', c, isEnd, .inl rfl, le.trans le'⟩
    · exact ⟨x', d, isEnd, .inr rfl, le.trans le'⟩

end GccCil.Lib
