import Mathlib.Data.List.Sort
import Mathlib.Order.Basic

/-!
# Merging sorted association lists

Lists of entries with strictly increasing keys.  A merge takes entries of either
list whose key the other one lacks, and combines those with a common key.
-/

namespace GccCil.Lib

variable {κ α : Type} [LinearOrder κ]

def Increasing (entries : List (κ × α)) : Prop :=
  entries.Pairwise fun left right => left.1 < right.1

def HasKey (entries : List (κ × α)) (key : κ) : Prop := ∃ value, (key, value) ∈ entries

theorem Increasing.eq_of_mem_iff {left right : List (κ × α)} (leftIncreasing : Increasing left)
    (rightIncreasing : Increasing right) (same : ∀ entry, entry ∈ left ↔ entry ∈ right) :
    left = right := by
  have irreflexive : Std.Irrefl fun left right : κ × α => left.1 < right.1 :=
    ⟨fun entry => lt_irrefl entry.1⟩
  have asymmetric : Std.Antisymm fun left right : κ × α => left.1 < right.1 :=
    ⟨fun _ _ less greater => absurd less (lt_asymm greater)⟩
  exact List.Pairwise.eq_of_mem_iff leftIncreasing rightIncreasing (fun {entry} => same entry)

theorem Increasing.unique {entries : List (κ × α)} (increasing : Increasing entries) {key : κ}
    {value other : α} (first : (key, value) ∈ entries) (second : (key, other) ∈ entries) :
    value = other := by
  induction entries with
  | nil => cases first
  | cons entry entries ih =>
    obtain ⟨below, increasing⟩ := List.pairwise_cons.mp increasing
    cases first with
    | head =>
      cases second with
      | head => rfl
      | tail _ second => exact absurd (below _ second) (lt_irrefl key)
    | tail _ first =>
      cases second with
      | head => exact absurd (below _ first) (lt_irrefl key)
      | tail _ second => exact ih increasing first second

variable (keepLeft keepRight : Bool) (combine : α → α → Option α)

def kept (keep : Bool) (entries : List (κ × α)) : List (κ × α) := if keep then entries else []

def mergeWith : List (κ × α) → List (κ × α) → List (κ × α)
  | [], right => kept keepRight right
  | left, [] => kept keepLeft left
  | (i, x) :: left, (j, y) :: right =>
    if i < j then kept keepLeft [(i, x)] ++ mergeWith left ((j, y) :: right)
    else if j < i then kept keepRight [(j, y)] ++ mergeWith ((i, x) :: left) right
    else ((combine x y).map (Prod.mk i)).toList ++ mergeWith left right
  termination_by left right => left.length + right.length

def Merged (left right : List (κ × α)) (key : κ) (value : α) : Prop :=
  (∃ x y, (key, x) ∈ left ∧ (key, y) ∈ right ∧ combine x y = some value) ∨
    (keepLeft = true ∧ (key, value) ∈ left ∧ ¬HasKey right key) ∨
    (keepRight = true ∧ (key, value) ∈ right ∧ ¬HasKey left key)

variable {keepLeft keepRight combine}

omit [LinearOrder κ] in
theorem mem_kept {keep : Bool} {entries : List (κ × α)} {entry : κ × α} :
    entry ∈ kept keep entries ↔ keep = true ∧ entry ∈ entries := by
  unfold kept
  split <;> simp_all

omit [LinearOrder κ] in
theorem hasKey_cons {entries : List (κ × α)} {key other : κ} {value : α} :
    HasKey ((other, value) :: entries) key ↔ key = other ∨ HasKey entries key := by
  constructor
  · rintro ⟨found, member⟩
    cases member with
    | head => exact Or.inl rfl
    | tail _ member => exact Or.inr ⟨found, member⟩
  · rintro (rfl | ⟨found, member⟩)
    · exact ⟨value, List.mem_cons_self⟩
    · exact ⟨found, List.mem_cons_of_mem _ member⟩

theorem not_hasKey_of_lt {entries : List (κ × α)} {key : κ}
    (above : ∀ entry ∈ entries, key < entry.1) : ¬HasKey entries key := by
  rintro ⟨value, member⟩
  exact lt_irrefl key (above _ member)

theorem not_mem_of_lt {entries : List (κ × α)} {key : κ} {value : α}
    (above : ∀ entry ∈ entries, key < entry.1) : (key, value) ∉ entries :=
  fun member => lt_irrefl key (above _ member)

theorem lt_of_mem_cons {entries : List (κ × α)} {i j : κ} {y : α} (less : i < j)
    (increasing : Increasing ((j, y) :: entries)) : ∀ entry ∈ (j, y) :: entries, i < entry.1 := by
  intro entry member
  cases member with
  | head => exact less
  | tail _ member => exact less.trans ((List.pairwise_cons.mp increasing).1 entry member)

theorem mergeWith_nil_right (entries : List (κ × α)) :
    mergeWith keepLeft keepRight combine entries [] = kept keepLeft entries := by
  cases entries with
  | nil =>
    rw [mergeWith]
    cases keepLeft <;> cases keepRight <;> rfl
  | cons entry entries => rw [mergeWith]; exact List.cons_ne_nil _ _

theorem mem_mergeWith {left right : List (κ × α)} (leftIncreasing : Increasing left)
    (rightIncreasing : Increasing right) {key : κ} {value : α} :
    (key, value) ∈ mergeWith keepLeft keepRight combine left right ↔
      Merged keepLeft keepRight combine left right key value := by
  induction left, right using mergeWith.induct with
  | case1 right =>
    rw [mergeWith, mem_kept, Merged]
    simp [HasKey]
  | case2 left nonempty =>
    rw [mergeWith, mem_kept, Merged]
    · simp [HasKey]
    · exact nonempty
  | case3 i x left j y right less ih =>
    have absent := lt_of_mem_cons less rightIncreasing
    obtain ⟨above, leftIncreasing⟩ := List.pairwise_cons.mp leftIncreasing
    rw [mergeWith, if_pos less, List.mem_append, mem_kept,
      ih leftIncreasing rightIncreasing, Merged, Merged]
    by_cases same : key = i
    · subst same
      have notRight : ∀ value, (key, value) ∉ (j, y) :: right := fun _ => not_mem_of_lt absent
      have notLeft : ∀ value, (key, value) ∉ left := fun _ => not_mem_of_lt above
      have noKey := not_hasKey_of_lt absent
      simp [notRight, notLeft, noKey, hasKey_cons, List.mem_cons]
    · simp [same, hasKey_cons, List.mem_cons]
  | case4 i x left j y right notLess greater ih =>
    have absent := lt_of_mem_cons greater leftIncreasing
    obtain ⟨above, rightIncreasing⟩ := List.pairwise_cons.mp rightIncreasing
    rw [mergeWith, if_neg notLess, if_pos greater, List.mem_append, mem_kept,
      ih leftIncreasing rightIncreasing, Merged, Merged]
    by_cases same : key = j
    · subst same
      have notRight : ∀ value, (key, value) ∉ right := fun _ => not_mem_of_lt above
      have notLeft : ∀ value, (key, value) ∉ (i, x) :: left := fun _ => not_mem_of_lt absent
      have noKey := not_hasKey_of_lt absent
      simp [notRight, notLeft, noKey, hasKey_cons, List.mem_cons]
    · simp [same, hasKey_cons, List.mem_cons]
  | case5 i x left j y right notLess notGreater ih =>
    obtain rfl : i = j := le_antisymm (not_lt.mp notGreater) (not_lt.mp notLess)
    obtain ⟨aboveLeft, leftIncreasing⟩ := List.pairwise_cons.mp leftIncreasing
    obtain ⟨aboveRight, rightIncreasing⟩ := List.pairwise_cons.mp rightIncreasing
    rw [mergeWith, if_neg notLess, if_neg notGreater, List.mem_append,
      ih leftIncreasing rightIncreasing, Merged, Merged]
    by_cases same : key = i
    · subst same
      have notRight : ∀ value, (key, value) ∉ right := fun _ => not_mem_of_lt aboveRight
      have notLeft : ∀ value, (key, value) ∉ left := fun _ => not_mem_of_lt aboveLeft
      simp [notRight, notLeft, hasKey_cons, List.mem_cons]
    · have other : (key, value) ∉ ((combine x y).map (Prod.mk i)).toList := by
        simp [Ne.symm same]
      simp [same, other, hasKey_cons, List.mem_cons]

theorem hasKey_of_mergeWith {left right : List (κ × α)} (leftIncreasing : Increasing left)
    (rightIncreasing : Increasing right) {entry : κ × α}
    (member : entry ∈ mergeWith keepLeft keepRight combine left right) :
    HasKey left entry.1 ∨ HasKey right entry.1 := by
  obtain ⟨x, y, isLeft, -⟩ | ⟨-, isLeft, -⟩ | ⟨-, isRight, -⟩ :=
    (mem_mergeWith leftIncreasing rightIncreasing).mp member
  · exact Or.inl ⟨x, isLeft⟩
  · exact Or.inl ⟨_, isLeft⟩
  · exact Or.inr ⟨_, isRight⟩

theorem lt_mergeWith {left right : List (κ × α)} (leftIncreasing : Increasing left)
    (rightIncreasing : Increasing right) {key : κ} (aboveLeft : ∀ entry ∈ left, key < entry.1)
    (aboveRight : ∀ entry ∈ right, key < entry.1) :
    ∀ entry ∈ mergeWith keepLeft keepRight combine left right, key < entry.1 := by
  intro entry member
  obtain ⟨x, isLeft⟩ | ⟨y, isRight⟩ := hasKey_of_mergeWith leftIncreasing rightIncreasing member
  · exact aboveLeft (entry.1, x) isLeft
  · exact aboveRight (entry.1, y) isRight

theorem increasing_kept {keep : Bool} {entries : List (κ × α)} (increasing : Increasing entries) :
    Increasing (kept keep entries) := by
  unfold kept
  split
  · exact increasing
  · exact List.Pairwise.nil

theorem increasing_append {first entries : List (κ × α)} (one : first.length ≤ 1)
    (increasing : Increasing entries) (above : ∀ entry ∈ first, ∀ other ∈ entries, entry.1 < other.1) :
    Increasing (first ++ entries) := by
  cases first with
  | nil => exact increasing
  | cons entry more =>
    obtain rfl : more = [] := List.length_eq_zero_iff.mp (by simpa using one)
    exact List.pairwise_cons.mpr ⟨above entry List.mem_cons_self, increasing⟩

theorem increasing_mergeWith {left right : List (κ × α)} (leftIncreasing : Increasing left)
    (rightIncreasing : Increasing right) :
    Increasing (mergeWith keepLeft keepRight combine left right) := by
  have length_kept : ∀ (keep : Bool) (entry : κ × α), (kept keep [entry]).length ≤ 1 := by
    intro keep entry
    cases keep <;> simp [kept]
  induction left, right using mergeWith.induct with
  | case1 right =>
    rw [mergeWith]
    exact increasing_kept rightIncreasing
  | case2 left nonempty =>
    rw [mergeWith]
    · exact increasing_kept leftIncreasing
    · exact nonempty
  | case3 i x left j y right less ih =>
    have absent := lt_of_mem_cons less rightIncreasing
    obtain ⟨above, leftIncreasing⟩ := List.pairwise_cons.mp leftIncreasing
    rw [mergeWith, if_pos less]
    apply increasing_append (length_kept _ _) (ih leftIncreasing rightIncreasing)
    intro entry member
    obtain rfl := List.mem_singleton.mp (mem_kept.mp member).2
    exact lt_mergeWith leftIncreasing rightIncreasing above absent
  | case4 i x left j y right notLess greater ih =>
    have absent := lt_of_mem_cons greater leftIncreasing
    obtain ⟨above, rightIncreasing⟩ := List.pairwise_cons.mp rightIncreasing
    rw [mergeWith, if_neg notLess, if_pos greater]
    apply increasing_append (length_kept _ _) (ih leftIncreasing rightIncreasing)
    intro entry member
    obtain rfl := List.mem_singleton.mp (mem_kept.mp member).2
    exact lt_mergeWith leftIncreasing rightIncreasing absent above
  | case5 i x left j y right notLess notGreater ih =>
    obtain rfl : i = j := le_antisymm (not_lt.mp notGreater) (not_lt.mp notLess)
    obtain ⟨aboveLeft, leftIncreasing⟩ := List.pairwise_cons.mp leftIncreasing
    obtain ⟨aboveRight, rightIncreasing⟩ := List.pairwise_cons.mp rightIncreasing
    rw [mergeWith, if_neg notLess, if_neg notGreater]
    apply increasing_append _ (ih leftIncreasing rightIncreasing)
    · intro entry member
      obtain ⟨z, -, rfl⟩ := Option.map_eq_some_iff.mp (Option.mem_toList.mp member)
      exact lt_mergeWith leftIncreasing rightIncreasing aboveLeft aboveRight
    · cases combine x y <;> simp

end GccCil.Lib
