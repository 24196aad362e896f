import Mathlib.Order.Lattice
import Mathlib.Data.Option.Basic

/-!
# Intervals with bounds that may be missing

A missing lower bound is below every value and a missing upper bound is above
every value.  The intersection of two intervals, each taken as it is or as its
complement, is described by how the intervals lie to each other; the first
interval is always the one that starts first.
-/

namespace GccCil.Lib.OpenBounds

universe u
variable {α : Type u}

def Above [LE α] (low : Option α) (v : α) : Prop := ∀ l ∈ low, l ≤ v

def Below [LE α] (high : Option α) (v : α) : Prop := ∀ h ∈ high, v ≤ h

def Within [LE α] (low high : Option α) (v : α) : Prop := Above low v ∧ Below high v

def LowerLE [LE α] (first second : Option α) : Prop := ∀ l ∈ first, ∃ m ∈ second, l ≤ m

def UpperLE [LE α] (first second : Option α) : Prop := ∀ h ∈ second, ∃ k ∈ first, k ≤ h

def Apart [LT α] (high low : Option α) : Prop := ∃ h ∈ high, ∃ l ∈ low, h < l

@[simp]
theorem above_none [LE α] (v : α) : Above none v := nofun

@[simp]
theorem below_none [LE α] (v : α) : Below none v := nofun

@[simp]
theorem above_some [LE α] (l v : α) : Above (some l) v ↔ l ≤ v := by simp [Above]

@[simp]
theorem below_some [LE α] (h v : α) : Below (some h) v ↔ v ≤ h := by simp [Below]

theorem Above.of_lowerLE [Preorder α] {first second : Option α} {v : α}
    (order : LowerLE first second) (above : Above second v) : Above first v := by
  intro l lower
  obtain ⟨m, upper, le⟩ := order l lower
  exact le.trans (above m upper)

theorem Below.of_upperLE [Preorder α] {first second : Option α} {v : α}
    (order : UpperLE first second) (below : Below first v) : Below second v := by
  intro h upper
  obtain ⟨k, lower, le⟩ := order h upper
  exact (below k lower).trans le

theorem Apart.not_above [Preorder α] {high low : Option α} {v : α} (apart : Apart high low)
    (below : Below high v) : ¬ Above low v := by
  obtain ⟨h, upper, l, lower, less⟩ := apart
  exact fun above => absurd ((below h upper).trans_lt less) (not_lt_of_ge (above l lower))

theorem lowerLE_of_eq [Preorder α] {first second : Option α} (same : first = second) :
    LowerLE first second := same ▸ fun l lower => ⟨l, lower, le_refl l⟩

theorem upperLE_of_eq [Preorder α] {first second : Option α} (same : first = second) :
    UpperLE first second := same ▸ fun h upper => ⟨h, upper, le_refl h⟩

@[simp]
theorem lowerLE_some [LE α] (l m : α) : LowerLE (some l) (some m) ↔ l ≤ m := by simp [LowerLE]

@[simp]
theorem upperLE_some [LE α] (k h : α) : UpperLE (some k) (some h) ↔ k ≤ h := by simp [UpperLE]

theorem lowerLE_antisymm [PartialOrder α] {first second : Option α}
    (forth : LowerLE first second) (back : LowerLE second first) : first = second := by
  cases first with
  | none =>
    cases second with
    | none => rfl
    | some m => exact absurd (back m rfl) nofun
  | some l =>
    cases second with
    | none => exact absurd (forth l rfl) nofun
    | some m =>
      exact congrArg some
        (le_antisymm ((lowerLE_some l m).mp forth) ((lowerLE_some m l).mp back))

theorem upperLE_none [LE α] {first : Option α} : UpperLE first none := nofun

theorem UpperLE.eq_none [LE α] {second : Option α} (order : UpperLE none second) :
    second = none := by
  cases second with
  | none => rfl
  | some h => exact absurd (order h rfl) nofun

theorem LowerLE.eq_none [LE α] {first : Option α} (order : LowerLE first none) :
    first = none := by
  cases first with
  | none => rfl
  | some l => exact absurd (order l rfl) nofun

section Linear

variable [LinearOrder α] {high low first second : Option α} {v : α}

theorem above_of_not_below (meet : ¬ Apart high low) (beyond : ¬ Below high v) :
    Above low v := by
  intro l lower
  by_contra before
  apply beyond
  intro h upper
  by_contra after
  exact meet ⟨h, upper, l, lower, (not_le.mp after).trans (not_le.mp before)⟩

theorem upperLE_of_not (order : ¬ UpperLE first second) : UpperLE second first := by
  intro h upper
  by_contra none
  apply order
  intro k lower
  exact ⟨h, upper, le_of_lt (not_le.mp fun le => none ⟨k, lower, le⟩)⟩

theorem lowerLE_of_not (order : ¬ LowerLE first second) : LowerLE second first := by
  intro l lower
  by_contra none
  apply order
  intro m upper
  exact ⟨l, lower, le_of_lt (not_le.mp fun le => none ⟨m, upper, le⟩)⟩

end Linear

section Intersections

variable [LinearOrder α] {low0 high0 low1 high1 : Option α} {v : α}

theorem inter_of_apart (apart : Apart high0 low1) :
    ¬ (Within low0 high0 v ∧ Within low1 high1 v) :=
  fun ⟨first, second⟩ => apart.not_above first.2 second.1

theorem inter_of_subset (start : LowerLE low0 low1) (subset : UpperLE high1 high0) :
    Within low1 high1 v ↔ Within low0 high0 v ∧ Within low1 high1 v :=
  ⟨fun second => ⟨⟨second.1.of_lowerLE start, second.2.of_upperLE subset⟩, second⟩, And.right⟩

theorem inter_of_overlap (start : LowerLE low0 low1) (beyond : UpperLE high0 high1) :
    Within low1 high0 v ↔ Within low0 high0 v ∧ Within low1 high1 v :=
  ⟨fun both => ⟨⟨both.1.of_lowerLE start, both.2⟩, both.1, both.2.of_upperLE beyond⟩,
    fun both => ⟨both.2.1, both.1.2⟩⟩

theorem diff_of_apart (apart : Apart high0 low1) :
    Within low0 high0 v ↔ Within low0 high0 v ∧ ¬ Within low1 high1 v :=
  ⟨fun first => ⟨first, fun second => inter_of_apart apart ⟨first, second⟩⟩, And.left⟩

theorem diff_of_subset (ordered : ¬ Apart high1 low1) (start : LowerLE low0 low1)
    (startBack : LowerLE low1 low0) :
    (¬ Below high1 v ∧ Below high0 v) ↔ Within low0 high0 v ∧ ¬ Within low1 high1 v := by
  constructor
  · rintro ⟨behind, below⟩
    exact ⟨⟨(above_of_not_below ordered behind).of_lowerLE start, below⟩,
      fun second => behind second.2⟩
  · rintro ⟨first, outside⟩
    exact ⟨fun below => outside ⟨first.1.of_lowerLE startBack, below⟩, first.2⟩

theorem diff_of_overlap (meet : ¬ Apart high0 low1) (beyond : UpperLE high0 high1) :
    (Above low0 v ∧ ¬ Above low1 v) ↔ Within low0 high0 v ∧ ¬ Within low1 high1 v := by
  constructor
  · rintro ⟨above, before⟩
    exact ⟨⟨above, by_contra fun behind => before (above_of_not_below meet behind)⟩,
      fun second => before second.1⟩
  · rintro ⟨first, outside⟩
    exact ⟨first.1, fun above => outside ⟨above, first.2.of_upperLE beyond⟩⟩

theorem rest_of_apart (apart : Apart high0 low1) :
    Within low1 high1 v ↔ ¬ Within low0 high0 v ∧ Within low1 high1 v :=
  ⟨fun second => ⟨fun first => inter_of_apart apart ⟨first, second⟩, second⟩, And.right⟩

theorem rest_of_subset (start : LowerLE low0 low1) (subset : UpperLE high1 high0) :
    ¬ (¬ Within low0 high0 v ∧ Within low1 high1 v) :=
  fun ⟨outside, second⟩ => outside ((inter_of_subset start subset).mp second).1

theorem rest_of_overlap (meet : ¬ Apart high0 low1) (start : LowerLE low0 low1) :
    (¬ Below high0 v ∧ Below high1 v) ↔ ¬ Within low0 high0 v ∧ Within low1 high1 v := by
  constructor
  · rintro ⟨behind, below⟩
    exact ⟨fun first => behind first.2, above_of_not_below meet behind, below⟩
  · rintro ⟨outside, second⟩
    exact ⟨fun below => outside ⟨second.1.of_lowerLE start, below⟩, second.2⟩

/-- Adjacent or overlapping intervals have an interval as their union. -/
theorem union_of_overlap (touch : ¬ Below high0 v → Above low1 v) (start : LowerLE low0 low1)
    (beyond : Below high0 v → Below high1 v) :
    ¬ Within low0 high1 v ↔ ¬ Within low0 high0 v ∧ ¬ Within low1 high1 v := by
  rw [← not_or, not_iff_not]
  constructor
  · rintro ⟨above, below⟩
    by_cases first : Below high0 v
    · exact .inl ⟨above, first⟩
    · exact .inr ⟨touch first, below⟩
  · rintro (first | second)
    · exact ⟨first.1, beyond first.2⟩
    · exact ⟨second.1.of_lowerLE start, second.2⟩

theorem union_of_subset (start : LowerLE low0 low1) (subset : UpperLE high1 high0) :
    ¬ Within low0 high0 v ↔ ¬ Within low0 high0 v ∧ ¬ Within low1 high1 v :=
  ⟨fun outside => ⟨outside, fun second => outside ((inter_of_subset start subset).mp second).1⟩,
    And.left⟩

/-- What lies between two intervals that leave nothing before and behind. -/
theorem gap_of_apart (above : Above low0 v) (below : Below high1 v) :
    (¬ Below high0 v ∧ ¬ Above low1 v) ↔ ¬ Within low0 high0 v ∧ ¬ Within low1 high1 v := by
  rw [Within, Within, and_iff_right above, and_iff_left below]

end Intersections

end GccCil.Lib.OpenBounds
