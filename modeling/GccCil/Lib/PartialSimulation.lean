import Mathlib.Data.Option.Basic

/-!
# Simulation of partial functions

Two partial computations simulate each other when both fail or both succeed
with related results.  The relation is `Option.Rel`; the rules here carry it
through sequencing.
-/

namespace GccCil.Lib

universe u

variable {α β γ δ : Type u} {r : α → β → Prop} {s : γ → δ → Prop}

theorem rel_bind {x : Option α} {y : Option β} {f : α → Option γ} {g : β → Option δ}
    (first : Option.Rel r x y) (second : ∀ a b, r a b → Option.Rel s (f a) (g b)) :
    Option.Rel s (x.bind f) (y.bind g) := by
  cases first with
  | none => exact .none
  | some related => exact second _ _ related

theorem rel_bind_left {s : γ → β → Prop} {x : Option α} {y : Option β} {f : α → Option γ}
    (first : Option.Rel r x y) (second : ∀ a b, r a b → Option.Rel s (f a) (some b)) :
    Option.Rel s (x.bind f) y := by
  cases first with
  | none => exact .none
  | some related => exact second _ _ related

theorem rel_mono {x : Option α} {y : Option β} {r' : α → β → Prop}
    (related : Option.Rel r x y) (weaker : ∀ a b, r a b → r' a b) : Option.Rel r' x y := by
  cases related with
  | none => exact .none
  | some related => exact .some (weaker _ _ related)

theorem rel_refl (x : Option α) : Option.Rel (fun a b => a = b ∧ x = some a) x x := by
  cases x with
  | none => exact .none
  | some value => exact .some ⟨rfl, rfl⟩

theorem rel_some_left {x : α} {y : Option β} (related : Option.Rel r (some x) y) :
    ∃ b, y = some b ∧ r x b := by
  cases related with
  | some related => exact ⟨_, rfl, related⟩

theorem rel_some_right {x : Option α} {y : β} (related : Option.Rel r x (some y)) :
    ∃ a, x = some a ∧ r a y := by
  cases related with
  | some related => exact ⟨_, rfl, related⟩

theorem rel_none_right {x : Option α} (related : Option.Rel r x (none : Option β)) :
    x = none := by
  cases related with
  | none => rfl

end GccCil.Lib
