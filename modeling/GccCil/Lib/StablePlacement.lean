import Mathlib.Data.Nat.Count
import Mathlib.Data.Fintype.EquivFin
import Mathlib.Data.List.FinRange
import Mathlib.Data.List.OfFn
import Mathlib.Logic.Equiv.Fintype

/-!
# Stable placement by a digit

A counting sort puts each element behind those with a smaller digit and behind the earlier
ones with the same digit.  The places make a permutation.  What holds of two elements
because of their digits, or because of their order where the digits are equal, holds of the
places of the result in ascending order.
-/

namespace GccCil.Lib

/-- The place of element `k` among `n` elements. -/
def place (digit : ℕ → ℕ) (n k : ℕ) : ℕ :=
  Nat.count (fun i => digit i < digit k) n + Nat.count (fun i => digit i = digit k) k

/-- The elements with a smaller digit and those with this one are the ones up to it. -/
theorem count_lt_add_count_eq (digit : ℕ → ℕ) (d n : ℕ) :
    Nat.count (fun i => digit i < d) n + Nat.count (fun i => digit i = d) n =
      Nat.count (fun i => digit i ≤ d) n := by
  induction n with
  | zero => rfl
  | succ n ih =>
    simp only [Nat.count_succ]
    rcases lt_trichotomy (digit n) d with less | equal | more
    · rw [if_pos less, if_neg less.ne, if_pos less.le]
      omega
    · rw [if_neg equal.not_lt, if_pos equal, if_pos equal.le]
      omega
    · rw [if_neg more.not_gt, if_neg more.ne', if_neg more.not_ge]
      omega

theorem count_eq_lt (digit : ℕ → ℕ) {k n : ℕ} (less : k < n) :
    Nat.count (fun i => digit i = digit k) k < Nat.count (fun i => digit i = digit k) n := by
  have next : Nat.count (fun i => digit i = digit k) (k + 1) ≤
      Nat.count (fun i => digit i = digit k) n := Nat.count_monotone _ less
  rw [Nat.count_succ, if_pos rfl] at next
  omega

/-- The places are in the order of the digits, and of the elements where these are equal. -/
theorem place_lt (digit : ℕ → ℕ) {n i k : ℕ} (inside : i < n)
    (order : digit i < digit k ∨ digit i = digit k ∧ i < k) :
    place digit n i < place digit n k := by
  rw [place, place]
  rcases order with less | ⟨equal, less⟩
  · have before := count_eq_lt digit inside
    have sum := count_lt_add_count_eq digit (digit i) n
    have weaker : Nat.count (fun j => digit j ≤ digit i) n ≤
        Nat.count (fun j => digit j < digit k) n :=
      Nat.count_mono_left (fun j _ atMost => lt_of_le_of_lt atMost less)
    omega
  · have before := count_eq_lt digit less
    rw [equal] at before ⊢
    omega

theorem place_lt_length (digit : ℕ → ℕ) {n k : ℕ} (inside : k < n) : place digit n k < n := by
  have before := count_eq_lt digit inside
  have sum := count_lt_add_count_eq digit (digit k) n
  have all := @Nat.count_le (fun i => digit i ≤ digit k) _ n
  rw [place]
  omega

theorem order_of_place_lt (digit : ℕ → ℕ) {n i k : ℕ} (inside : k < n)
    (less : place digit n i < place digit n k) :
    digit i < digit k ∨ digit i = digit k ∧ i < k := by
  by_contra back
  have order : digit k < digit i ∨ digit k = digit i ∧ k < i ∨ k = i := by omega
  rcases order with smaller | ⟨equal, later⟩ | rfl
  · exact lt_asymm less (place_lt digit inside (Or.inl smaller))
  · exact lt_asymm less (place_lt digit inside (Or.inr ⟨equal, later⟩))
  · exact lt_irrefl _ less

theorem place_inj (digit : ℕ → ℕ) {n i k : ℕ} (first : i < n) (second : k < n)
    (same : place digit n i = place digit n k) : i = k := by
  by_contra differ
  have order : (digit i < digit k ∨ digit i = digit k ∧ i < k) ∨
      (digit k < digit i ∨ digit k = digit i ∧ k < i) := by omega
  rcases order with order | order
  · exact (place_lt digit first order).ne same
  · exact (place_lt digit second order).ne' same

theorem place_injective (digit : ℕ → ℕ) (n : ℕ) :
    Function.Injective
      (fun k : Fin n => (⟨place digit n k, place_lt_length digit k.isLt⟩ : Fin n)) :=
  fun i k same => Fin.ext (place_inj digit i.isLt k.isLt (congrArg Fin.val same))

noncomputable def placement (digit : ℕ → ℕ) (n : ℕ) : Equiv.Perm (Fin n) :=
  Equiv.ofBijective _ (Finite.injective_iff_bijective.mp (place_injective digit n))

theorem placement_apply (digit : ℕ → ℕ) {n : ℕ} (k : Fin n) :
    (placement digit n k : ℕ) = place digit n k := rfl

variable {α : Type*}

/-- Each element of `input` is at its place in `output`. -/
structure Placed (digit : ℕ → ℕ) (input output : List α) : Prop where
  length : output.length = input.length
  moved : ∀ k < input.length, output[place digit input.length k]? = input[k]?

theorem Placed.getElem_eq {digit : ℕ → ℕ} {input output : List α}
    (placed : Placed digit input output) {k p : ℕ} (same : place digit input.length k = p)
    (inside : k < input.length) (bound : p < output.length) : output[p] = input[k] := by
  have moved := placed.moved k inside
  rw [same, List.getElem?_eq_getElem inside, List.getElem?_eq_getElem bound] at moved
  exact Option.some.inj moved

theorem Placed.perm {digit : ℕ → ℕ} {input output : List α} (placed : Placed digit input output) :
    output.Perm input := by
  have outputs : output = List.ofFn (fun p : Fin input.length =>
      output.get (Fin.cast placed.length.symm p)) := by
    apply List.ext_getElem (by simp [placed.length])
    intro p first second
    simp
  have inputs : input = List.ofFn ((fun p : Fin input.length =>
      output.get (Fin.cast placed.length.symm p)) ∘ placement digit input.length) := by
    apply List.ext_getElem (by simp)
    intro k first second
    have bound := place_lt_length digit first
    simp [placement_apply, placed.getElem_eq rfl first (placed.length ▸ bound)]
  have perm := Equiv.Perm.ofFn_comp_perm (placement digit input.length)
    (fun p : Fin input.length => output.get (Fin.cast placed.length.symm p))
  rw [← inputs, ← outputs] at perm
  exact perm.symm

/-- What holds of two elements in the order of their digits holds along the result. -/
theorem Placed.pairwise {digit : ℕ → ℕ} {input output : List α}
    (placed : Placed digit input output) {S : α → α → Prop}
    (ordered : ∀ i k (first : i < input.length) (second : k < input.length),
      digit i < digit k ∨ digit i = digit k ∧ i < k → S input[i] input[k]) :
    output.Pairwise S := by
  rw [List.pairwise_iff_getElem]
  intro p q first second less
  have firstInput : p < input.length := placed.length ▸ first
  have secondInput : q < input.length := placed.length ▸ second
  let i := (placement digit input.length).symm ⟨p, firstInput⟩
  let k := (placement digit input.length).symm ⟨q, secondInput⟩
  have iPlace : place digit input.length i = p := by
    rw [← placement_apply, Equiv.apply_symm_apply]
  have kPlace : place digit input.length k = q := by
    rw [← placement_apply, Equiv.apply_symm_apply]
  rw [placed.getElem_eq iPlace i.isLt first, placed.getElem_eq kPlace k.isLt second]
  refine ordered i k i.isLt k.isLt (order_of_place_lt digit k.isLt ?_)
  rw [iPlace, kPlace]
  exact less

end GccCil.Lib
