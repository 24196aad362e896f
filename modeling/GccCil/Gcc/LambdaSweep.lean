import Mathlib.Algebra.Order.BigOperators.Group.Finset
import GccCil.Gcc.LambdaOperations

/-!
# Reduction to lower triangular form

The sweep that `lambda_matrix_inverse_hard` and `lambda_matrix_hermite` share:
Euclid's algorithm on the elements of a row, by operations on the columns that
a second matrix follows.
-/

namespace GccCil.Gcc.Lambda

open GccCil.Lib

/-- The operations on the second matrix, and the factor of a column in the sweep. -/
structure Companion (α : Type) where
  /-- Negates the column with the index. -/
  negate : Nat → α → α
  /-- Exchanges two columns. -/
  exchange : Nat → Nat → α → α
  /-- Adds a multiple of the first column to the second one. -/
  add : Nat → Nat → Int → α → α
  /-- The factor of the column with the first element, for the second one as divisor. -/
  factor : Int → Int → Option Int
  factor_eq : ∀ a b, 0 < b → factor a b = some (-(a.tdiv b))

variable {α : Type} (ops : Companion α) (n : Nat)

def makeElementPositive (j : Nat) (state : LambdaMatrix × α) (i : Nat) : LambdaMatrix × α :=
  let (temp, inv) := state
  if temp j i < 0 then (colNegate temp n i, ops.negate i inv) else (temp, inv)

def makePositive (j : Nat) (state : LambdaMatrix × α) : LambdaMatrix × α :=
  (List.range' j (n - j)).foldl (makeElementPositive ops n j) state

def reduceColumn (j : Nat) (state : LambdaMatrix × α) (i : Nat) : Option (LambdaMatrix × α) := do
  let (temp, inv) := state
  let factor ← ops.factor (temp j i) (temp j j)
  return (colAdd temp n j i factor, ops.add j i factor inv)

def sweepRound (j : Nat) (temp : LambdaMatrix) (inv : α) : Option (LambdaMatrix × α) := do
  let minCol ← minNz (temp j) n j
  (List.range' (j + 1) (n - (j + 1))).foldlM (reduceColumn ops n j)
    (colExchange temp n j minCol, ops.exchange j minCol inv)

/-- The operations on the columns from `j` on keep a relation between the two matrices. -/
structure Keeps (j : Nat) (related : LambdaMatrix → α → Prop) : Prop where
  negate : ∀ {temp inv i}, j ≤ i → i < n → related temp inv →
    related (colNegate temp n i) (ops.negate i inv)
  exchange : ∀ {temp inv i}, j ≤ i → i < n → related temp inv →
    related (colExchange temp n j i) (ops.exchange j i inv)
  add : ∀ {temp inv i} (factor), j < i → i < n → related temp inv →
    related (colAdd temp n j i factor) (ops.add j i factor inv)

theorem Keeps.trivial (j : Nat) : Keeps ops n j (fun _ _ => True) :=
  ⟨fun _ _ _ => True.intro, fun _ _ _ => True.intro, fun _ _ _ _ => True.intro⟩

theorem firstNz_lt_iff (vec1 : Nat → Int) (start : Nat) :
    firstNz vec1 n start < n ↔ ∃ i, start ≤ i ∧ i < n ∧ vec1 i ≠ 0 := by
  fun_induction firstNz vec1 n start with
  | case1 start zero ih =>
    rw [ih]
    constructor
    · rintro ⟨i, after, before, nonzero⟩
      exact ⟨i, by omega, before, nonzero⟩
    · rintro ⟨i, after, before, nonzero⟩
      refine ⟨i, Nat.lt_of_le_of_ne after ?_, before, nonzero⟩
      rintro rfl
      exact nonzero zero.2
  | case2 start done =>
    constructor
    · intro before
      exact ⟨start, le_refl _, before, fun zero => done ⟨before, zero⟩⟩
    · rintro ⟨i, after, before, nonzero⟩
      omega

variable {ops n} {j : Nat} {temp : LambdaMatrix} {inv : α} {related : LambdaMatrix → α → Prop}

/-- The columns from `j` on have a nonnegative element in the row `j`. -/
def RowNonneg (n j : Nat) (temp : LambdaMatrix) : Prop :=
  ∀ i, j ≤ i → i < n → 0 ≤ temp j i

theorem colAdd_self (temp : LambdaMatrix) {n r c1 c2 : Nat} (row : r < n) (const1 : Int) :
    colAdd temp n c1 c2 const1 r c2 = temp r c2 + const1 * temp r c1 :=
  if_pos ⟨row, rfl⟩

theorem colAdd_other (temp : LambdaMatrix) (n r : Nat) {c1 c2 c : Nat} (other : c ≠ c2)
    (const1 : Int) : colAdd temp n c1 c2 const1 r c = temp r c :=
  if_neg fun same => other same.2

theorem reduceColumns_spec (inside : j < n) (keeps : Keeps ops n j related)
    (start : related temp inv) (pivot : 0 < temp j j) (nonneg : RowNonneg n j temp) :
    ∃ temp' inv', (List.range' (j + 1) (n - (j + 1))).foldlM (reduceColumn ops n j) (temp, inv) =
        some (temp', inv') ∧
      related temp' inv' ∧ temp' j j = temp j j ∧
      ∀ i, j < i → i < n → temp' j i = temp j i % temp j j := by
  let invariant : Nat → LambdaMatrix × α → Prop := fun i state =>
    related state.1 state.2 ∧ state.1 j j = temp j j ∧
      (∀ k, j < k → k < i → state.1 j k = temp j k % temp j j) ∧
      ∀ k, i ≤ k → state.1 j k = temp j k
  have round : ∀ i state, j + 1 ≤ i → i < j + 1 + (n - (j + 1)) → invariant i state →
      ∃ next, reduceColumn ops n j state i = some next ∧ invariant (i + 1) next := by
    rintro i ⟨state, companion⟩ above below ⟨kept, diagonal, reduced, rest⟩
    dsimp only at kept diagonal reduced rest
    have before : i < n := by omega
    have divided : ops.factor (state j i) (state j j) =
        some (-((state j i).tdiv (state j j))) :=
      ops.factor_eq _ _ (by rw [diagonal]; exact pivot)
    refine ⟨_, by rw [reduceColumn, divided]; rfl, keeps.add _ (by omega) before kept, ?_, ?_, ?_⟩
    · dsimp only
      rw [colAdd_other _ _ _ (by omega)]
      exact diagonal
    · intro k after earlier
      dsimp only
      rcases Nat.lt_succ_iff_lt_or_eq.mp earlier with earlier | rfl
      · rw [colAdd_other _ _ _ (by omega)]
        exact reduced k after earlier
      · rw [colAdd_self _ inside, diagonal, rest k (le_refl k), neg_mul, ← sub_eq_add_neg,
          mul_comm, ← Int.tmod_def, Int.tmod_eq_emod_of_nonneg (nonneg k after.le before)]
    · intro k later
      dsimp only
      rw [colAdd_other _ _ _ (by omega)]
      exact rest k (by omega)
  obtain ⟨⟨temp', inv'⟩, ran, kept, diagonal, reduced, -⟩ := CountedLoops.foldlM_range' round
    (show invariant (j + 1) (temp, inv) from
      ⟨start, rfl, fun k after before => by omega, fun k _ => rfl⟩)
  exact ⟨temp', inv', ran, kept, diagonal, fun i after before => reduced i after (by omega)⟩

theorem sweepRound_spec (keeps : Keeps ops n j related) (start : related temp inv)
    (nonneg : RowNonneg n j temp) {i : Nat} (after : j < i) (before : i < n)
    (nonzero : temp j i ≠ 0) :
    ∃ c temp' inv', sweepRound ops n j temp inv = some (temp', inv') ∧ related temp' inv' ∧
      j ≤ c ∧ c < n ∧ 0 < temp j c ∧
      (∀ k, j ≤ k → k < n → temp j k ≠ 0 → temp j c ≤ temp j k ∧ (k < c → temp j c < temp j k)) ∧
      temp' j j = temp j c ∧
      ∀ k, j < k → k < n → temp' j k = (if k = c then temp j j else temp j k) % temp j c := by
  have inside : j < n := after.trans before
  obtain ⟨c, found, fromStart, inRow, nonzeroC, least⟩ := minNz_of_nonzero after.le before nonzero
  have positive : 0 < temp j c := lt_of_le_of_ne (nonneg c fromStart inRow) (Ne.symm nonzeroC)
  have exchanged : ∀ k, colExchange temp n j c j k =
      if k = j then temp j c else if k = c then temp j j else temp j k := by
    intro k
    rw [colExchange, if_pos inside]
  have diagonal : colExchange temp n j c j j = temp j c := by
    rw [exchanged, if_pos rfl]
  obtain ⟨temp', inv', ran, kept, pivot, reduced⟩ := reduceColumns_spec inside keeps
    (keeps.exchange fromStart inRow start) (by rw [diagonal]; exact positive) (by
      intro k afterK beforeK
      rw [exchanged]
      split
      · exact positive.le
      split
      · exact nonneg j (le_refl j) inside
      · exact nonneg k afterK beforeK)
  refine ⟨c, temp', inv', ?_, kept, fromStart, inRow, positive, least, pivot.trans diagonal, ?_⟩
  · rw [sweepRound, found]
    exact ran
  · intro k afterK beforeK
    rw [reduced k afterK beforeK, diagonal, exchanged, if_neg afterK.ne']

def remaining (n j : Nat) (temp : LambdaMatrix) : Nat :=
  ∑ i ∈ Finset.Ico (j + 1) n, (temp j i).natAbs

theorem sweepRound_progress (nonneg : RowNonneg n j temp)
    (more : firstNz (temp j) n (j + 1) < n) {temp' : LambdaMatrix} {inv' : α}
    (ran : sweepRound ops n j temp inv = some (temp', inv')) :
    RowNonneg n j temp' ∧ remaining n j temp' < remaining n j temp := by
  obtain ⟨i, after, before, nonzero⟩ := (firstNz_lt_iff n _ _).mp more
  obtain ⟨c, final, companion, finished, -, fromStart, inRow, positive, least, pivot, reduced⟩ :=
    sweepRound_spec (Keeps.trivial ops n j) True.intro nonneg after before nonzero
  obtain ⟨rfl, rfl⟩ := Prod.mk.inj (Option.some.inj (finished.symm.trans ran))
  have rest : ∀ k, j < k → k < n → 0 ≤ final j k := fun k afterK beforeK => by
    rw [reduced k afterK beforeK]
    exact Int.emod_nonneg _ positive.ne'
  constructor
  · intro k afterK beforeK
    rcases Nat.eq_or_lt_of_le afterK with rfl | later
    · rw [pivot]
      exact positive.le
    · exact rest k later beforeK
  · have below : ∀ k, j < k → k < n → final j k < temp j c := fun k afterK beforeK => by
      rw [reduced k afterK beforeK]
      exact Int.emod_lt_of_pos _ positive
    apply Finset.sum_lt_sum
    · intro k member
      rw [Finset.mem_Ico] at member
      have smaller : final j k ≤ temp j k := by
        by_cases zero : temp j k = 0
        · have other : k ≠ c := fun same => positive.ne' (same ▸ zero)
          rw [reduced k member.1 member.2, if_neg other, zero, Int.zero_emod]
        · exact (below k member.1 member.2).le.trans (least k (by omega) member.2 zero).1
      have value := rest k member.1 member.2
      omega
    · rcases Nat.eq_or_lt_of_le fromStart with rfl | later
      · refine ⟨i, Finset.mem_Ico.mpr ⟨after, before⟩, ?_⟩
        have less := lt_of_lt_of_le (below i after before) (least i (Nat.le_of_lt after) before nonzero).1
        have value := rest i after before
        omega
      · refine ⟨c, Finset.mem_Ico.mpr ⟨later, inRow⟩, ?_⟩
        have less := below c later inRow
        have value := rest c later inRow
        omega

/-- The state of the sweep of a row, whose elements are nonnegative. -/
structure Sweep (n j : Nat) (α : Type) where
  temp : LambdaMatrix
  inv : α
  nonneg : RowNonneg n j temp

/-- "Sweep the upper triangle.  Stop when only the diagonal element in the
current row is nonzero." -/
def sweep (ops : Companion α) (n j : Nat) (state : Sweep n j α) : Option (LambdaMatrix × α) :=
  if more : firstNz (state.temp j) n (j + 1) < n then
    match ran : sweepRound ops n j state.temp state.inv with
    | none => none
    | some (temp, inv) => sweep ops n j ⟨temp, inv, (sweepRound_progress state.nonneg more ran).1⟩
  else some (state.temp, state.inv)
termination_by remaining n j state.temp
decreasing_by exact (sweepRound_progress state.nonneg more ran).2

theorem sweep_spec (keeps : Keeps ops n j related) (state : Sweep n j α)
    (start : related state.temp state.inv) :
    ∃ temp' inv', sweep ops n j state = some (temp', inv') ∧ related temp' inv' ∧
      RowNonneg n j temp' ∧ ∀ i, j < i → i < n → temp' j i = 0 := by
  fun_induction sweep ops n j state with
  | case1 state more failed =>
    obtain ⟨i, after, before, nonzero⟩ := (firstNz_lt_iff n _ _).mp more
    obtain ⟨c, temp', inv', ran, -⟩ :=
      sweepRound_spec keeps start state.nonneg after before nonzero
    rw [failed] at ran
    cases ran
  | case2 state more temp inv ran ih =>
    obtain ⟨i, after, before, nonzero⟩ := (firstNz_lt_iff n _ _).mp more
    obtain ⟨c, temp', inv', finished, kept, -⟩ :=
      sweepRound_spec keeps start state.nonneg after before nonzero
    obtain ⟨rfl, rfl⟩ := Prod.mk.inj (Option.some.inj (finished.symm.trans ran))
    exact ih kept
  | case3 state done =>
    refine ⟨_, _, rfl, start, state.nonneg, fun i after before => ?_⟩
    by_contra nonzero
    exact done ((firstNz_lt_iff n _ _).mpr ⟨i, after, before, nonzero⟩)

theorem makePositive_spec (keeps : Keeps ops n j related) {state : LambdaMatrix × α}
    (start : related state.1 state.2) :
    related (makePositive ops n j state).1 (makePositive ops n j state).2 ∧
      RowNonneg n j (makePositive ops n j state).1 := by
  let invariant : Nat → LambdaMatrix × α → Prop := fun i state =>
    related state.1 state.2 ∧ ∀ k, j ≤ k → k < i → 0 ≤ state.1 j k
  have round : ∀ i state, j ≤ i → i < j + (n - j) → invariant i state →
      invariant (i + 1) (makeElementPositive ops n j state i) := by
    rintro i ⟨temp, inv⟩ above below ⟨kept, nonneg⟩
    have inside : j < n := by omega
    by_cases negative : temp j i < 0
    · rw [makeElementPositive, if_pos negative]
      refine ⟨keeps.negate above (by omega) kept, fun k after before => ?_⟩
      dsimp only [colNegate]
      by_cases same : k = i
      · subst same
        rw [if_pos ⟨inside, rfl⟩]
        omega
      · rw [if_neg fun both => same both.2]
        exact nonneg k after (by omega)
    · rw [makeElementPositive, if_neg negative]
      refine ⟨kept, fun k after before => ?_⟩
      rcases Nat.lt_succ_iff_lt_or_eq.mp before with earlier | rfl
      · exact nonneg k after earlier
      · exact not_lt.mp negative
  have final : invariant (j + (n - j)) (makePositive ops n j state) :=
    CountedLoops.foldl_range' round ⟨start, fun k after before => absurd before (not_lt.mpr after)⟩
  exact ⟨final.1, fun i after before => final.2 i after (by omega)⟩

theorem makePositive_nonneg (ops : Companion α) (n j : Nat) (state : LambdaMatrix × α) :
    RowNonneg n j (makePositive ops n j state).1 :=
  (makePositive_spec (Keeps.trivial ops n j) True.intro).2

def triangularRow (ops : Companion α) (n : Nat) (state : LambdaMatrix × α) (j : Nat) :
    Option (LambdaMatrix × α) :=
  sweep ops n j ⟨(makePositive ops n j state).1, (makePositive ops n j state).2,
    makePositive_nonneg ops n j state⟩

def triangularize (ops : Companion α) (n : Nat) (mat : LambdaMatrix) (start : α) :
    Option (LambdaMatrix × α) :=
  (List.range n).foldlM (triangularRow ops n) (mat, start)

/-- The first `j` rows are those of a lower triangular matrix. -/
def LowerRows (n j : Nat) (temp : LambdaMatrix) : Prop :=
  ∀ i, i < j → 0 ≤ temp i i ∧ ∀ k, i < k → k < n → temp i k = 0

/-- The columns after the diagonal of finished rows are zero, so that operations on
them leave the rows as they are. -/
theorem Keeps.lowerRows (keeps : Keeps ops n j related) :
    Keeps ops n j (fun temp inv => related temp inv ∧ LowerRows n j temp) where
  negate := by
    rintro temp inv i after before ⟨kept, lower⟩
    refine ⟨keeps.negate after before kept, fun r row => ?_⟩
    obtain ⟨nonneg, zero⟩ := lower r row
    constructor
    · rwa [colNegate, if_neg fun both => by omega]
    · intro k afterK beforeK
      rw [colNegate, zero k afterK beforeK, zero_mul, ite_self]
  exchange := by
    rintro temp inv i after before ⟨kept, lower⟩
    refine ⟨keeps.exchange after before kept, fun r row => ?_⟩
    obtain ⟨nonneg, zero⟩ := lower r row
    have inside : r < n := by omega
    constructor
    · rwa [colExchange, if_pos inside, if_neg (by omega), if_neg (by omega)]
    · intro k afterK beforeK
      rw [colExchange, if_pos inside, zero i (by omega) before, zero j row (by omega),
        zero k afterK beforeK, ite_self, ite_self]
  add := by
    rintro temp inv i factor after before ⟨kept, lower⟩
    refine ⟨keeps.add factor after before kept, fun r row => ?_⟩
    obtain ⟨nonneg, zero⟩ := lower r row
    constructor
    · rwa [colAdd, if_neg fun both => by omega]
    · intro k afterK beforeK
      rw [colAdd, zero k afterK beforeK, zero j row (by omega), mul_zero, add_zero, ite_self]

theorem triangularRow_spec (keeps : Keeps ops n j related) (inside : j < n)
    {state : LambdaMatrix × α} (start : related state.1 state.2) (lower : LowerRows n j state.1) :
    ∃ next, triangularRow ops n state j = some next ∧ related next.1 next.2 ∧
      LowerRows n (j + 1) next.1 := by
  obtain ⟨⟨kept, lower⟩, nonneg⟩ := makePositive_spec keeps.lowerRows ⟨start, lower⟩
  obtain ⟨temp, inv, ran, ⟨kept, lower⟩, nonneg, zero⟩ :=
    sweep_spec keeps.lowerRows ⟨_, _, nonneg⟩ ⟨kept, lower⟩
  refine ⟨(temp, inv), ran, kept, fun i before => ?_⟩
  rcases Nat.lt_succ_iff_lt_or_eq.mp before with earlier | rfl
  · exact lower i earlier
  · exact ⟨nonneg i (le_refl i) inside, zero⟩

theorem triangularize_spec (keeps : ∀ j, Keeps ops n j related) {mat : LambdaMatrix} {start : α}
    (first : related mat start) :
    ∃ temp inv, triangularize ops n mat start = some (temp, inv) ∧ related temp inv ∧
      LowerRows n n temp := by
  let invariant : Nat → LambdaMatrix × α → Prop := fun j state =>
    related state.1 state.2 ∧ LowerRows n j state.1
  have round : ∀ j state, 0 ≤ j → j < 0 + n → invariant j state →
      ∃ next, triangularRow ops n state j = some next ∧ invariant (j + 1) next :=
    fun j state _ below holds => triangularRow_spec (keeps j) (by omega) holds.1 holds.2
  obtain ⟨⟨temp, inv⟩, ran, kept, lower⟩ := CountedLoops.foldlM_range' round
    (show invariant 0 (mat, start) from ⟨first, fun i before => absurd before (Nat.not_lt_zero i)⟩)
  rw [Nat.zero_add] at lower
  refine ⟨temp, inv, ?_, kept, lower⟩
  rw [triangularize, List.range_eq_range', ran]

end GccCil.Gcc.Lambda
