import Mathlib.Data.List.Range
import Mathlib.Data.Option.Basic

/-!
# Counted loops

The invariant rules of loops over consecutive indices, for bodies that always
go on and for bodies that may fail.
-/

namespace GccCil.Lib.CountedLoops

variable {σ : Type*} {invariant : Nat → σ → Prop} {first count : Nat} {state : σ}

theorem foldl_range' {body : σ → Nat → σ}
    (round : ∀ i state, first ≤ i → i < first + count → invariant i state →
      invariant (i + 1) (body state i))
    (start : invariant first state) :
    invariant (first + count) ((List.range' first count).foldl body state) := by
  induction count generalizing first state with
  | zero => exact start
  | succ count ih =>
    rw [List.range'_succ, List.foldl_cons, ← Nat.add_assoc, Nat.add_right_comm]
    apply ih
    · intro i state above below
      exact round i state (by omega) (by omega)
    · exact round first state (Nat.le_refl first) (by omega) start

/-- A loop whose rounds succeed succeeds, with the invariant of its last index. -/
theorem foldlM_range' {body : σ → Nat → Option σ}
    (round : ∀ i state, first ≤ i → i < first + count → invariant i state →
      ∃ next, body state i = some next ∧ invariant (i + 1) next)
    (start : invariant first state) :
    ∃ final, (List.range' first count).foldlM body state = some final ∧
      invariant (first + count) final := by
  induction count generalizing first state with
  | zero => exact ⟨state, rfl, start⟩
  | succ count ih =>
    obtain ⟨next, ran, kept⟩ := round first state (Nat.le_refl first) (by omega) start
    obtain ⟨final, finished, holds⟩ := ih
      (fun i state above below => round i state (by omega) (by omega)) kept
    refine ⟨final, ?_, ?_⟩
    · rw [List.range'_succ, List.foldlM_cons, ran]
      exact finished
    · rwa [← Nat.add_assoc, Nat.add_right_comm]

end GccCil.Lib.CountedLoops
