import Mathlib

/-!
# Comparison after a common prefix

Two lists are compared at the place where they first differ.  What is compared there
depends on a state, which the common prefix decides, and on all that follows: each state
ranks the rests of the lists.  Such a comparison is irreflexive, asymmetric and total.  A
cycle of three lists must have the form of a detour: two of the lists agree longer than
the third does, and the third is between them.
-/

namespace GccCil.Lib

variable {α σ κ : Type*} [LinearOrder κ] (step : σ → α → σ) (rank : σ → List α → κ)

/-- The first list comes before the second one. -/
inductive Precedes : σ → List α → List α → Prop
  | heads {state : σ} {first second : List α} (differ : first.head? ≠ second.head?)
      (less : rank state first < rank state second) : Precedes state first second
  | tails {state : σ} {first second : List α} (c : α)
      (rest : Precedes (step state c) first second) : Precedes state (c :: first) (c :: second)

variable {step rank}

theorem precedes_of_heads {state : σ} {first second : List α}
    (differ : first.head? ≠ second.head?) :
    Precedes step rank state first second ↔ rank state first < rank state second := by
  constructor
  · intro precedes
    cases precedes with
    | heads _ less => exact less
    | tails c rest => exact absurd rfl differ
  · exact Precedes.heads differ

theorem precedes_cons {state : σ} {c : α} {first second : List α} :
    Precedes step rank state (c :: first) (c :: second) ↔
      Precedes step rank (step state c) first second := by
  constructor
  · intro precedes
    cases precedes with
    | heads differ less => exact absurd rfl differ
    | tails _ rest => exact rest
  · exact Precedes.tails c

theorem precedes_append {state : σ} (common : List α) {first second : List α} :
    Precedes step rank state (common ++ first) (common ++ second) ↔
      Precedes step rank (common.foldl step state) first second := by
  induction common generalizing state with
  | nil => exact Iff.rfl
  | cons c common ih => rw [List.cons_append, List.cons_append, precedes_cons, ih, List.foldl_cons]

theorem Precedes.irrefl {state : σ} (list : List α) : ¬ Precedes step rank state list list := by
  induction list generalizing state with
  | nil =>
    intro precedes
    cases precedes with
    | heads differ less => exact differ rfl
  | cons c list ih =>
    intro precedes
    exact ih (precedes_cons.mp precedes)

theorem Precedes.asymm {state : σ} {first second : List α}
    (precedes : Precedes step rank state first second) :
    ¬ Precedes step rank state second first := by
  induction precedes with
  | heads differ less =>
    intro back
    exact lt_asymm less ((precedes_of_heads (Ne.symm differ)).mp back)
  | tails c rest ih =>
    intro back
    exact ih (precedes_cons.mp back)

/-- Where the ranks tell valid lists with different heads apart, one of two different valid
lists comes first. -/
theorem Precedes.total {Valid : List α → Prop}
    (tail : ∀ {c : α} {list : List α}, Valid (c :: list) → Valid list)
    (apart : ∀ {state : σ} {first second : List α}, Valid first → Valid second →
      first.head? ≠ second.head? → rank state first ≠ rank state second)
    {state : σ} {first second : List α} (validFirst : Valid first) (validSecond : Valid second)
    (differ : first ≠ second) :
    Precedes step rank state first second ∨ Precedes step rank state second first := by
  by_cases heads : first.head? = second.head?
  · induction first generalizing state second with
    | nil =>
      rw [List.head?_nil, eq_comm, List.head?_eq_none_iff] at heads
      exact absurd heads.symm differ
    | cons c first ih =>
      obtain ⟨second, rfl⟩ := List.head?_eq_some_iff.mp heads.symm
      have restDiffer : first ≠ second := fun same => differ (by rw [same])
      rw [precedes_cons, precedes_cons]
      by_cases restHeads : first.head? = second.head?
      · exact ih (tail validFirst) (tail validSecond) restDiffer restHeads
      · rcases lt_or_gt_of_ne (apart (tail validFirst) (tail validSecond) restHeads) with
          less | less
        · exact Or.inl (Precedes.heads restHeads less)
        · exact Or.inr (Precedes.heads (Ne.symm restHeads) less)
  · rcases lt_or_gt_of_ne (apart validFirst validSecond heads) with less | less
    · exact Or.inl (Precedes.heads heads less)
    · exact Or.inr (Precedes.heads (Ne.symm heads) less)

variable (step rank)

/-- `left` and `right` agree longer than `middle` agrees with them.  By the ranks where
`middle` leaves them it is between them, and later on `right` comes before `left`. -/
def Detour (state : σ) (left middle right : List α) : Prop :=
  ∃ (common : List α) (d : α) (leftRest middleRest rightRest : List α),
    left = common ++ d :: leftRest ∧ middle = common ++ middleRest ∧
    right = common ++ d :: rightRest ∧ middleRest.head? ≠ some d ∧
    rank (common.foldl step state) (d :: leftRest) < rank (common.foldl step state) middleRest ∧
    rank (common.foldl step state) middleRest < rank (common.foldl step state) (d :: rightRest) ∧
    Precedes step rank (step (common.foldl step state) d) rightRest leftRest

variable {step rank}

theorem Detour.cons {state : σ} {left middle right : List α} {c : α}
    (detour : Detour step rank (step state c) left middle right) :
    Detour step rank state (c :: left) (c :: middle) (c :: right) := by
  obtain ⟨common, d, leftRest, middleRest, rightRest, rfl, rfl, rfl, rest⟩ := detour
  exact ⟨c :: common, d, leftRest, middleRest, rightRest, rfl, rfl, rfl, rest⟩

theorem Detour.cycle {state : σ} {left middle right : List α}
    (detour : Detour step rank state left middle right) :
    Precedes step rank state left middle ∧ Precedes step rank state middle right ∧
      Precedes step rank state right left := by
  obtain ⟨common, d, leftRest, middleRest, rightRest, rfl, rfl, rfl, differ, below, above,
    back⟩ := detour
  refine ⟨?_, ?_, ?_⟩
  · exact (precedes_append common).mpr (Precedes.heads (Ne.symm differ) below)
  · exact (precedes_append common).mpr (Precedes.heads differ above)
  · exact (precedes_append common).mpr (precedes_cons.mpr back)

theorem detour_of_heads {state : σ} {left middle right : List α}
    (alike : right.head? = left.head?) (differ : middle.head? ≠ left.head?)
    (below : Precedes step rank state left middle) (above : Precedes step rank state middle right)
    (back : Precedes step rank state right left) : Detour step rank state left middle right := by
  cases left with
  | nil =>
    rw [List.head?_nil, List.head?_eq_none_iff] at alike
    subst alike
    exact absurd back (Precedes.irrefl [])
  | cons d left =>
    obtain ⟨right, rfl⟩ := List.head?_eq_some_iff.mp alike
    have leaves : middle.head? ≠ (d :: right).head? := differ
    exact ⟨[], d, left, middle, right, rfl, rfl, rfl, differ,
      (precedes_of_heads (Ne.symm differ)).mp below, (precedes_of_heads leaves).mp above,
      precedes_cons.mp back⟩

theorem detour_of_cycle {state : σ} {a b c : List α}
    (ab : Precedes step rank state a b) (bc : Precedes step rank state b c)
    (ca : Precedes step rank state c a) :
    Detour step rank state a b c ∨ Detour step rank state b c a ∨ Detour step rank state c a b := by
  induction a generalizing state b c with
  | nil =>
    have bHead : b.head? ≠ ([] : List α).head? := by
      intro alike
      rw [List.head?_nil, List.head?_eq_none_iff] at alike
      exact Precedes.irrefl [] (alike ▸ ab)
    by_cases alike : b.head? = c.head?
    · exact Or.inr (Or.inr (detour_of_heads alike (alike ▸ bHead.symm) ca ab bc))
    · by_cases cHead : c.head? = ([] : List α).head?
      · rw [List.head?_nil, List.head?_eq_none_iff] at cHead
        exact absurd (cHead ▸ ca) (Precedes.irrefl [])
      · have first := (precedes_of_heads bHead.symm).mp ab
        have second := (precedes_of_heads alike).mp bc
        have third := (precedes_of_heads cHead).mp ca
        exact absurd (lt_trans first (lt_trans second third)) (lt_irrefl _)
  | cons d a ih =>
    by_cases bHead : b.head? = (d :: a).head?
    · by_cases cHead : c.head? = (d :: a).head?
      · obtain ⟨b, rfl⟩ := List.head?_eq_some_iff.mp bHead
        obtain ⟨c, rfl⟩ := List.head?_eq_some_iff.mp cHead
        rcases ih (precedes_cons.mp ab) (precedes_cons.mp bc) (precedes_cons.mp ca) with
          detour | detour | detour
        · exact Or.inl detour.cons
        · exact Or.inr (Or.inl detour.cons)
        · exact Or.inr (Or.inr detour.cons)
      · exact Or.inr (Or.inl (detour_of_heads bHead.symm (bHead ▸ cHead) bc ca ab))
    · by_cases cHead : c.head? = (d :: a).head?
      · exact Or.inl (detour_of_heads cHead bHead ab bc ca)
      · by_cases alike : b.head? = c.head?
        · exact Or.inr (Or.inr (detour_of_heads alike (Ne.symm cHead) ca ab bc))
        · have first := (precedes_of_heads (Ne.symm bHead)).mp ab
          have second := (precedes_of_heads alike).mp bc
          have third := (precedes_of_heads cHead).mp ca
          exact absurd (lt_trans first (lt_trans second third)) (lt_irrefl _)

end GccCil.Lib
