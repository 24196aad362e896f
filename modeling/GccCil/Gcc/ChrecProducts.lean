import GccCil.Gcc.Chrec

/-!
# Products of chains of recurrences

`chrec_fold_multiply` of `tree-chrec.c`.  With a constant it scales every part.
A product of recurrences of different loops leaves the right part of the inner
one as it is, and the formula for recurrences of one loop is for coefficients
that do not change in the loop.  This file says by how much a product is missed.
-/

namespace GccCil.Gcc.Scev

open GccCil.Lib RangeTest

namespace Chrec

/-- What the steps of an invariant factor lack: the recurrence of the loop `var`
with the right part `right` is multiplied by `factor`. -/
def unscaled (modulus : Nat) (factor : Chrec) (var : Nat) (right : Chrec)
    (iteration : Nat → Nat) : ZMod modulus :=
  (factor.eval modulus iteration - 1) *
    ∑ j ∈ Finset.range (iteration var), right.eval modulus (Function.update iteration var j)

def variation (modulus : Nat) (var : Nat) (left0 right0 left1 right1 : Chrec)
    (iteration : Nat → Nat) : ZMod modulus :=
  let value (p : Chrec) (j : Nat) := p.eval modulus (Function.update iteration var j)
  ∑ j ∈ Finset.range (iteration var),
    ((left0.eval modulus iteration - value left0 j) * value right1 j +
      (left1.eval modulus iteration - value left1 j) * value right0 j +
      ∑ k ∈ Finset.range j,
        ((value right0 j - value right0 k) * value right1 k +
          (value right1 j - value right1 k) * value right0 k))

def missing (modulus : Nat) : Chrec → Chrec → (Nat → Nat) → ZMod modulus
  | .poly var0 left0 right0, .poly var1 left1 right1, iteration =>
    if var0 < var1 then
      missing modulus left1 (.poly var0 left0 right0) iteration +
        unscaled modulus (.poly var0 left0 right0) var1 right1 iteration
    else if var1 < var0 then
      missing modulus left0 (.poly var1 left1 right1) iteration +
        unscaled modulus (.poly var1 left1 right1) var0 right0 iteration
    else
      let move (j : Nat) := Function.update iteration var0 j
      missing modulus left0 left1 iteration +
        ∑ j ∈ Finset.range (iteration var0),
          (missing modulus left0 right1 (move j) + missing modulus right0 left1 (move j) +
            missing modulus right0 right1 (move j) +
            ∑ k ∈ Finset.range j, 2 * missing modulus right0 right1 (move k)) +
        variation modulus var0 left0 right0 left1 right1 iteration
  | .cst _, _, _ | .poly _ _ _, .cst _, _ => 0
termination_by p q => sizeOf p + sizeOf q

theorem missing_cst (modulus : Nat) (p : Chrec) (c : Cst) (iteration : Nat → Nat) :
    missing modulus p (.cst c) iteration = 0 := by
  cases p <;> rw [missing]

theorem cst_missing (modulus : Nat) (p : Chrec) (c : Cst) (iteration : Nat → Nat) :
    missing modulus (.cst c) p iteration = 0 := by
  rw [missing]

end Chrec

/-- `r` is what the code makes of the product of `p` and `q`. -/
structure Multiplies (type : CstType) (p q r : Chrec) : Prop where
  typed : r.Typed type
  eval : ∀ iteration, r.eval (2 ^ type.precision) iteration +
      p.missing (2 ^ type.precision) q iteration =
    p.eval (2 ^ type.precision) iteration * q.eval (2 ^ type.precision) iteration

namespace Multiplies

variable {type : CstType} {p q left right left0 right0 left1 right1 : Chrec} {var var0 var1 : Nat}

theorem of_scales {c : Cst} {r : Chrec} (scales : Scales type c p r) :
    Multiplies type p (.cst c) r where
  typed := scales.typed
  eval iteration := by rw [Chrec.missing_cst, add_zero, scales.eval, Chrec.eval]

theorem of_scales' {c : Cst} {r : Chrec} (scales : Scales type c p r) :
    Multiplies type (.cst c) p r where
  typed := scales.typed
  eval iteration := by rw [Chrec.cst_missing, add_zero, scales.eval, Chrec.eval, mul_comm]

theorem into_second (less : var0 < var1)
    (lefts : Multiplies type left1 (.poly var0 left0 right0) left) (typed : right1.Typed type) :
    Multiplies type (.poly var0 left0 right0) (.poly var1 left1 right1)
      (.poly var1 left right1) where
  typed := ⟨lefts.typed, typed⟩
  eval iteration := by
    have product := lefts.eval iteration
    rw [Chrec.missing, if_pos less, Chrec.unscaled, Chrec.eval_poly _ var1,
      Chrec.eval_poly _ var1]
    linear_combination product

theorem into_first (less : var1 < var0)
    (lefts : Multiplies type left0 (.poly var1 left1 right1) left) (typed : right0.Typed type) :
    Multiplies type (.poly var0 left0 right0) (.poly var1 left1 right1)
      (.poly var0 left right0) where
  typed := ⟨lefts.typed, typed⟩
  eval iteration := by
    have product := lefts.eval iteration
    rw [Chrec.missing, if_neg less.not_gt, if_pos less, Chrec.unscaled,
      Chrec.eval_poly _ var0, Chrec.eval_poly _ var0]
    linear_combination product

theorem same_loop {t0 first second third sum t1 third' t2 : Chrec}
    (start : Multiplies type left0 left1 t0) (isFirst : Multiplies type left0 right1 first)
    (isSecond : Multiplies type right0 left1 second) (isThird : Multiplies type right0 right1 third)
    (isSum : Sums type .plus first second sum) (isStep : Sums type .plus sum third t1)
    (isThird' : Multiplies type right0 right1 third')
    (twice : Multiplies type (buildIntCstType type 2) third' t2) :
    Multiplies type (.poly var left0 right0) (.poly var left1 right1)
      (.poly var t0 (.poly var t1 t2)) where
  typed := ⟨start.typed, isStep.typed, twice.typed⟩
  eval iteration := by
    have isTwice : ∀ i, t2.eval (2 ^ type.precision) i =
        2 * (right0.eval (2 ^ type.precision) i * right1.eval (2 ^ type.precision) i -
          right0.missing (2 ^ type.precision) right1 i) := by
      intro i
      have product := twice.eval i
      rw [buildIntCstType, Chrec.cst_missing, ← buildIntCstType, cast_buildIntCstType, add_zero,
        eq_sub_of_add_eq (isThird'.eval i)] at product
      exact_mod_cast product
    have isT1 : ∀ i, t1.eval (2 ^ type.precision) i +
          (left0.missing (2 ^ type.precision) right1 i +
            right0.missing (2 ^ type.precision) left1 i +
            right0.missing (2 ^ type.precision) right1 i) =
        left0.eval (2 ^ type.precision) i * right1.eval (2 ^ type.precision) i +
          right0.eval (2 ^ type.precision) i * left1.eval (2 ^ type.precision) i +
          right0.eval (2 ^ type.precision) i * right1.eval (2 ^ type.precision) i := by
      intro i
      rw [isStep.eval, combine, isSum.eval, combine]
      linear_combination isFirst.eval i + isSecond.eval i + isThird.eval i
    rw [Chrec.eval_poly _ var left0, Chrec.eval_poly _ var left1, Recurrences.mul_of_steps _ _
      (fun j => left0.eval (2 ^ type.precision) (Function.update iteration var j))
      (fun j => left1.eval (2 ^ type.precision) (Function.update iteration var j))]
    simp only [Chrec.missing, lt_irrefl, if_false, Chrec.variation, Chrec.eval_poly,
      Function.update_self, Function.update_idem, ← start.eval iteration, isTwice, ← isT1]
    simp only [mul_sub, Finset.sum_sub_distrib, Finset.sum_add_distrib]
    ring

end Multiplies

section Results

variable {type : CstType} {scevMaxExprSize : Nat} {p q : Chrec}

theorem chrecFoldMultiply_gives (pTyped : p.Typed type) (qTyped : q.Typed type) :
    Gives (2 < scevMaxExprSize) (chrecFoldMultiply type scevMaxExprSize p q)
      (Multiplies type p q) := by
  induction p, q using chrecFoldMultiply.induct type with
  | case1 var0 left0 right0 var1 left1 right1 less ih =>
    rw [chrecFoldMultiply, if_pos less]
    exact (ih qTyped.1 pTyped).build (.of_some rfl)
      fun left right lefts same => same ▸ lefts.into_second less qTyped.2
  | case2 var0 left0 right0 var1 left1 right1 notLess less ih =>
    rw [chrecFoldMultiply, if_neg notLess, if_pos less]
    exact (ih pTyped.1 qTyped).build (.of_some rfl)
      fun left right lefts same => same ▸ lefts.into_first less pTyped.2
  | case3 var0 left0 right0 var1 left1 right1 first second ih0 ih1 ih2 ih3 ih4 =>
    obtain rfl : var0 = var1 := Nat.le_antisymm (Nat.le_of_not_lt second) (Nat.le_of_not_lt first)
    rw [chrecFoldMultiply, if_neg first, if_neg first]
    refine (ih0 pTyped.1 qTyped.1).bind fun t0 start => ?_
    refine (ih1 pTyped.1 qTyped.2).bind fun first isFirst => ?_
    refine (ih2 pTyped.2 qTyped.1).bind fun second isSecond => ?_
    refine (chrecFoldPlus_gives isFirst.typed isSecond.typed).bind fun sum isSum => ?_
    refine (ih3 pTyped.2 qTyped.2).bind fun third isThird => ?_
    refine (chrecFoldPlus_gives isSum.typed isThird.typed).bind fun t1 isStep => ?_
    refine (ih3 pTyped.2 qTyped.2).bind fun third' isThird' => ?_
    refine (ih4 third' rfl isThird'.typed).bind fun t2 twice => ?_
    exact .of_some (start.same_loop isFirst isSecond isThird isSum isStep isThird' twice)
  | case4 _ _ _ c1 | case5 _ _ _ c1 | case6 _ _ _ c1 =>
    exact (chrecFoldMultiply_cst pTyped qTyped).mono fun r => .of_scales
  | case7 | case8 | case9 | case10 | case11 | case12 =>
    exact (cst_chrecFoldMultiply pTyped qTyped).mono fun r => .of_scales'

/-- The product is right in an iteration exactly where nothing is missing. -/
theorem chrecFoldMultiply_eval_iff (large : 2 < scevMaxExprSize) (pTyped : p.Typed type)
    (qTyped : q.Typed type) (iteration : Nat → Nat) :
    ∃ r, chrecFoldMultiply type scevMaxExprSize p q = some r ∧ r.Typed type ∧
      (r.eval (2 ^ type.precision) iteration =
          p.eval (2 ^ type.precision) iteration * q.eval (2 ^ type.precision) iteration ↔
        p.missing (2 ^ type.precision) q iteration = 0) := by
  have gives := @chrecFoldMultiply_gives type scevMaxExprSize p q pTyped qTyped
  obtain ⟨r, isProduct⟩ := gives.2 large
  obtain ⟨typed, product⟩ := gives.1 r isProduct
  refine ⟨r, isProduct, typed, ?_⟩
  rw [← product iteration]
  exact left_eq_add

end Results

theorem missing_affine (modulus var : Nat) (a b c d : Cst) (iteration : Nat → Nat) :
    (Chrec.poly var (.cst a) (.cst b)).missing modulus (.poly var (.cst c) (.cst d)) iteration =
      0 := by
  simp [Chrec.missing, Chrec.cst_missing, Chrec.variation, Chrec.eval]

/-- `{1, +, 2}_1 * {3, +, 4}_1` in every iteration. -/
theorem chrecFoldMultiply_eval_iff_affine :
    ∃ r, chrecFoldMultiply intType 20
        (.poly 1 (buildIntCstType intType 1) (buildIntCstType intType 2))
        (.poly 1 (buildIntCstType intType 3) (buildIntCstType intType 4)) = some r ∧
      r.eval (2 ^ intType.precision) (fun _ => 5) = 11 * 23 := by
  obtain ⟨r, isProduct, _, product⟩ := @chrecFoldMultiply_eval_iff intType 20
    (.poly 1 (buildIntCstType intType 1) (buildIntCstType intType 2))
    (.poly 1 (buildIntCstType intType 3) (buildIntCstType intType 4)) (by decide) (by exact ⟨rfl, rfl⟩)
    (by exact ⟨rfl, rfl⟩) (fun _ => 5)
  refine ⟨r, isProduct, (product.mpr (missing_affine _ _ _ _ _ _ _)).trans ?_⟩
  decide

/-- `{0, +, 1}_1 * {0, +, 1}_2` after two and three iterations is three. -/
theorem chrecFoldMultiply_two_loops :
    let number := fun n => buildIntCstType intType n
    let p := Chrec.poly 1 (number 0) (number 1)
    let q := Chrec.poly 2 (number 0) (number 1)
    let iteration := fun v => v + 1
    p.Typed intType ∧ q.Typed intType ∧ chrecFoldMultiply intType 20 p q = some q ∧
      q.eval (2 ^ intType.precision) iteration ≠
        p.eval (2 ^ intType.precision) iteration * q.eval (2 ^ intType.precision) iteration := by
  intro number p q iteration
  refine ⟨by exact ⟨rfl, rfl⟩, by exact ⟨rfl, rfl⟩, ?_, by decide⟩
  have zero : chrecFoldMultiply intType 20 (number 0) p = some (number 0) := by
    rw [chrecFoldMultiply.eq_def]
    rfl
  rw [chrecFoldMultiply, if_pos (by decide)]
  exact congrArg (buildPolynomialChrec 2 · (some (number 1))) zero
end GccCil.Gcc.Scev
