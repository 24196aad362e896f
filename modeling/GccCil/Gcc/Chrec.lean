import Mathlib.Data.ZMod.Basic
import GccCil.Gcc.MergeRanges
import GccCil.Lib.Recurrences

/-!
# Chains of recurrences

The sums and differences of `tree-chrec.c`.  A chain of recurrences
`{left, +, right}_v` starts at `left`, and each iteration of the loop `v` adds
`right` to it.  `none` stands for `chrec_dont_know`.
-/

namespace GccCil.Gcc.Scev

open GccCil.Lib RangeTest

/-- An integer constant, or a `POLYNOMIAL_CHREC`. -/
inductive Chrec where
  | cst (c : Cst)
  | poly (var : Nat) (left right : Chrec)
  deriving DecidableEq

namespace Chrec

def loops : Chrec → List Nat
  | cst _ => []
  | poly var left right => var :: (left.loops ++ right.loops)

def Typed (type : CstType) : Chrec → Prop
  | cst c => c.type = type
  | poly _ left right => left.Typed type ∧ right.Typed type

/-- The value in the given iteration of each loop. -/
def eval (modulus : Nat) : Chrec → (Nat → Nat) → ZMod modulus
  | cst c, _ => c.value
  | poly var left right, iteration =>
    left.eval modulus iteration +
      ∑ j ∈ Finset.range (iteration var),
        right.eval modulus (Function.update iteration var j)

theorem eval_poly (modulus var : Nat) (left right : Chrec) (iteration : Nat → Nat) :
    (poly var left right).eval modulus iteration =
      left.eval modulus iteration +
        ∑ j ∈ Finset.range (iteration var),
          right.eval modulus (Function.update iteration var j) := rfl

/-- `integer_zerop`, and `chrec_zerop`. -/
def isZero : Chrec → Bool
  | cst c => c.isZero
  | poly _ _ _ => false

/-- `integer_onep`. -/
def isOne : Chrec → Bool
  | cst c => !c.constantOverflow && c.value == 1
  | poly _ _ _ => false

def isPoly : Chrec → Bool
  | cst _ => false
  | poly _ _ _ => true

end Chrec

def buildPolynomialChrec (loopNum : Nat) (left right : Option Chrec) : Option Chrec := do
  return .poly loopNum (← left) (← right)

def buildIntCstType (type : CstType) (low : Int) : Chrec :=
  .cst { type := type, value := wrap type.unsigned type.precision low }

/-- `fold_build2` of a product of constants. -/
def foldMult (type : CstType) (arg0 arg1 : Cst) : Cst :=
  foldConvert type (forceFit arg0.type (arg0.value * arg1.value) true
    (arg0.overflow || arg1.overflow) (arg0.constantOverflow || arg1.constantOverflow))

theorem lex_of_le {a b c d : Nat} (first : a ≤ b) (second : c < d) :
    Prod.Lex (· < ·) (· < ·) (a, c) (b, d) := by
  rcases Nat.lt_or_eq_of_le first with less | rfl
  · exact .left c d less
  · exact .right a second

section Folding

variable (type : CstType) (scevMaxExprSize : Nat)

/-- The right part of the second operand in a sum or a difference; `negated` is the
product with minus one. -/
def movedRight (code : StepCode) (negated : Chrec → Option Chrec) (right : Chrec) :
    Option Chrec :=
  match code with
  | .plus => some right
  | .minus => negated right

/-- `chrec_fold_plus` and `chrec_fold_minus`, with `chrec_fold_plus_1` and
`chrec_fold_plus_poly_poly`. -/
def foldPlus1 (code : StepCode) (negated : Chrec → Option Chrec) (op0 op1 : Chrec) :
    Option Chrec :=
  if code = .plus ∧ op0.isZero = true then some op1
  else if op1.isZero then some op0
  else match op0, op1 with
    | .poly var0 left0 right0, .poly var1 left1 right1 =>
      if var0 < var1 then
        buildPolynomialChrec var1 (foldPlus1 code negated (.poly var0 left0 right0) left1)
          (movedRight code negated right1)
      else if var1 < var0 then
        buildPolynomialChrec var0 (foldPlus1 code negated left0 (.poly var1 left1 right1))
          (some right0)
      else
        let left := foldPlus1 code negated left0 left1
        let right := foldPlus1 code negated right0 right1
        if right.any Chrec.isZero then left else buildPolynomialChrec var0 left right
    | .poly var0 left0 right0, .cst c1 =>
      buildPolynomialChrec var0 (foldPlus1 code negated left0 (.cst c1)) (some right0)
    | .cst c0, .poly var1 left1 right1 =>
      buildPolynomialChrec var1 (foldPlus1 code negated (.cst c0) left1) (movedRight code negated right1)
    | .cst c0, .cst c1 =>
      if 2 < scevMaxExprSize then
        some (.cst (foldStep code type (foldConvert type c0) (foldConvert type c1)))
      else none
termination_by sizeOf op0 + sizeOf op1

def chrecFoldPlus (op0 op1 : Chrec) : Option Chrec :=
  foldPlus1 type scevMaxExprSize .plus some op0 op1

/-- `chrec_fold_multiply`, with `chrec_fold_multiply_poly_poly`. -/
def chrecFoldMultiply (op0 op1 : Chrec) : Option Chrec :=
  match op0, op1 with
  | .poly var0 left0 right0, .poly var1 left1 right1 =>
    if var0 < var1 then
      buildPolynomialChrec var1 (chrecFoldMultiply left1 (.poly var0 left0 right0)) (some right1)
    else if var1 < var0 then
      buildPolynomialChrec var0 (chrecFoldMultiply left0 (.poly var1 left1 right1)) (some right0)
    else do
      let t0 ← chrecFoldMultiply left0 left1
      let t1 ← chrecFoldPlus type scevMaxExprSize (← chrecFoldMultiply left0 right1)
        (← chrecFoldMultiply right0 left1)
      let t1 ← chrecFoldPlus type scevMaxExprSize t1 (← chrecFoldMultiply right0 right1)
      let t2 ← chrecFoldMultiply (buildIntCstType type 2) (← chrecFoldMultiply right0 right1)
      return .poly var0 t0 (.poly var0 t1 t2)
  | .poly var0 left0 right0, .cst c1 =>
    if (Chrec.cst c1).isOne then some op0
    else if (Chrec.cst c1).isZero then some (buildIntCstType type 0)
    else buildPolynomialChrec var0 (chrecFoldMultiply left0 (.cst c1))
      (chrecFoldMultiply right0 (.cst c1))
  | .cst c0, op1 =>
    if (Chrec.cst c0).isOne then some op1
    else if (Chrec.cst c0).isZero then some (buildIntCstType type 0)
    else match op1 with
      | .poly var1 left1 right1 =>
        buildPolynomialChrec var1 (chrecFoldMultiply left1 (.cst c0))
          (chrecFoldMultiply right1 (.cst c0))
      | .cst c1 =>
        if (Chrec.cst c1).isOne then some (.cst c0)
        else if (Chrec.cst c1).isZero then some (buildIntCstType type 0)
        else some (.cst (foldMult type c0 c1))
termination_by ((op0.isPoly && op1.isPoly).toNat, sizeOf op0 + sizeOf op1)
decreasing_by
  -- The product with two has a constant operand; elsewhere an operand gets smaller.
  all_goals first
    | exact .left _ _ Nat.zero_lt_one
    | refine lex_of_le (by simp [Chrec.isPoly, Bool.toNat_le]) ?_
      simp only [Chrec.poly.sizeOf_spec, Chrec.cst.sizeOf_spec]
      omega

def chrecFoldMinus (op0 op1 : Chrec) : Option Chrec :=
  foldPlus1 type scevMaxExprSize .minus
    (fun right => chrecFoldMultiply type scevMaxExprSize right (buildIntCstType type (-1))) op0 op1

end Folding

/-- A result that is as it should be when it is there, and that is there when
expressions of two nodes are not too large. -/
def Gives (enough : Prop) (result : Option Chrec) (holds : Chrec → Prop) : Prop :=
  (∀ r, result = some r → holds r) ∧ (enough → ∃ r, result = some r)

namespace Gives

variable {enough : Prop} {result left right : Option Chrec} {holds leftHolds rightHolds : Chrec → Prop}

theorem of_some {r : Chrec} (proof : holds r) : Gives enough (some r) holds :=
  ⟨fun _ same => Option.some.inj same ▸ proof, fun _ => ⟨r, rfl⟩⟩

theorem mono (gives : Gives enough result holds) {weaker : Chrec → Prop}
    (implied : ∀ r, holds r → weaker r) : Gives enough result weaker :=
  ⟨fun r same => implied r (gives.1 r same), gives.2⟩

theorem bind {next : Chrec → Option Chrec} (gives : Gives enough result holds)
    {last : Chrec → Prop} (each : ∀ r, holds r → Gives enough (next r) last) :
    Gives enough (result >>= next) last := by
  constructor
  · intro r same
    obtain ⟨middle, isMiddle, isLast⟩ := Option.bind_eq_some_iff.mp same
    exact (each middle (gives.1 middle isMiddle)).1 r isLast
  · intro large
    obtain ⟨middle, isMiddle⟩ := gives.2 large
    obtain ⟨r, isLast⟩ := (each middle (gives.1 middle isMiddle)).2 large
    exact ⟨r, Option.bind_eq_some_iff.mpr ⟨middle, isMiddle, isLast⟩⟩

theorem build {var : Nat} (leftGives : Gives enough left leftHolds)
    (rightGives : Gives enough right rightHolds)
    (both : ∀ l r, leftHolds l → rightHolds r → holds (.poly var l r)) :
    Gives enough (buildPolynomialChrec var left right) holds :=
  leftGives.bind fun l isLeft => rightGives.bind fun r isRight => of_some (both l r isLeft isRight)

end Gives

theorem cast_wrap (unsigned : Bool) (w : Nat) (x : Int) :
    ((wrap unsigned w x : Int) : ZMod (2 ^ w)) = x :=
  (ZMod.intCast_eq_intCast_iff _ _ _).mpr (wrap_modEq unsigned w x)

theorem cast_foldConvert (type : CstType) (c : Cst) :
    ((foldConvert type c).value : ZMod (2 ^ type.precision)) = c.value := by
  rw [foldConvert]
  split
  · rfl
  · exact cast_wrap _ _ _

theorem type_foldConvert (type : CstType) (c : Cst) : (foldConvert type c).type = type := by
  rw [foldConvert]
  split
  · next same => exact same.symm
  · rfl

def combine (code : StepCode) {R : Type} [Ring R] (x y : R) : R :=
  match code with
  | .plus => x + y
  | .minus => x - y

theorem cast_foldStep (code : StepCode) (type : CstType) (c0 c1 : Cst) :
    ((foldStep code type (foldConvert type c0) (foldConvert type c1)).value :
      ZMod (2 ^ type.precision)) = combine code (c0.value : ZMod (2 ^ type.precision)) c1.value := by
  rw [foldStep, cast_foldConvert, type_foldConvert]
  refine (cast_wrap _ _ _).trans ?_
  cases code <;> simp [StepCode.apply, combine, cast_foldConvert]

theorem combine_sum (code : StepCode) {R : Type} [Ring R] (f g : Nat → R) (n : Nat) :
    ∑ j ∈ Finset.range n, combine code (f j) (g j) =
      combine code (∑ j ∈ Finset.range n, f j) (∑ j ∈ Finset.range n, g j) := by
  cases code with
  | plus => exact Finset.sum_add_distrib
  | minus => exact Finset.sum_sub_distrib _ _

theorem Chrec.eval_of_isZero (modulus : Nat) {p : Chrec} (zero : p.isZero = true)
    (iteration : Nat → Nat) : p.eval modulus iteration = 0 := by
  cases p with
  | cst c =>
    have value : c.value = 0 := by simp_all [Chrec.isZero, Cst.isZero]
    rw [Chrec.eval, value, Int.cast_zero]
  | poly _ _ _ => cases zero

/-- The outermost recurrence is in the largest loop, here and in the left parts. -/
def Chrec.Ordered : Chrec → Prop
  | .cst _ => True
  | .poly var left right => (∀ v ∈ left.loops ++ right.loops, v ≤ var) ∧ left.Ordered

theorem Chrec.Ordered.le {var : Nat} {left right : Chrec} (ordered : (poly var left right).Ordered) :
    ∀ v ∈ (poly var left right).loops, v ≤ var := by
  intro v inside
  rcases List.mem_cons.mp inside with rfl | inside
  · exact Nat.le_refl v
  · exact ordered.1 v inside

/-- `r` is the sum or the difference of `p` and `q`. -/
structure Sums (type : CstType) (code : StepCode) (p q r : Chrec) : Prop where
  typed : r.Typed type
  eval : ∀ iteration, r.eval (2 ^ type.precision) iteration =
    combine code (p.eval (2 ^ type.precision) iteration) (q.eval (2 ^ type.precision) iteration)
  loops : ∀ v ∈ r.loops, v ∈ p.loops ∨ v ∈ q.loops
  ordered : p.Ordered → q.Ordered → r.Ordered

/-- `r` is what the right part `p` of the second operand becomes. -/
structure Moves (type : CstType) (code : StepCode) (p r : Chrec) : Prop where
  typed : r.Typed type
  eval : ∀ iteration, r.eval (2 ^ type.precision) iteration =
    combine code 0 (p.eval (2 ^ type.precision) iteration)
  loops : ∀ v ∈ r.loops, v ∈ p.loops

namespace Sums

variable {type : CstType} {code : StepCode} {p q left right left0 right0 left1 right1 : Chrec}
  {var : Nat}

theorem of_zero_left (zero : p.isZero = true) (typed : q.Typed type) : Sums type .plus p q q where
  typed := typed
  eval iteration := by rw [Chrec.eval_of_isZero _ zero, combine, zero_add]
  loops _ inside := .inr inside
  ordered _ ordered := ordered

theorem of_zero_right (zero : q.isZero = true) (typed : p.Typed type) : Sums type code p q p where
  typed := typed
  eval iteration := by rw [Chrec.eval_of_isZero _ zero]; cases code <;> simp [combine]
  loops _ inside := .inl inside
  ordered ordered _ := ordered

theorem into_second (sums : Sums type code p left1 left) (moves : Moves type code right1 right)
    (below : p.Ordered → ∀ v ∈ p.loops, v ≤ var) :
    Sums type code p (.poly var left1 right1) (.poly var left right) where
  typed := ⟨sums.typed, moves.typed⟩
  eval iteration := by
    simp only [Chrec.eval, sums.eval, moves.eval, combine_sum, Finset.sum_const_zero]
    cases code <;> simp only [combine] <;> ring
  loops v inside := by
    simp only [Chrec.loops, List.mem_cons, List.mem_append] at inside ⊢
    rcases inside with rfl | inside | inside
    · exact .inr (.inl rfl)
    · exact (sums.loops v inside).imp_right fun inside => .inr (.inl inside)
    · exact .inr (.inr (.inr (moves.loops v inside)))
  ordered first second := by
    refine ⟨fun v inside => ?_, sums.ordered first second.2⟩
    rcases List.mem_append.mp inside with inside | inside
    · rcases sums.loops v inside with inside | inside
      · exact below first v inside
      · exact second.1 v (List.mem_append_left _ inside)
    · exact second.1 v (List.mem_append_right _ (moves.loops v inside))

theorem into_first (sums : Sums type code left0 q left) (typed : right0.Typed type)
    (below : q.Ordered → ∀ v ∈ q.loops, v ≤ var) :
    Sums type code (.poly var left0 right0) q (.poly var left right0) where
  typed := ⟨sums.typed, typed⟩
  eval iteration := by
    simp only [Chrec.eval, sums.eval]
    cases code <;> simp only [combine] <;> ring
  loops v inside := by
    simp only [Chrec.loops, List.mem_cons, List.mem_append] at inside ⊢
    rcases inside with rfl | inside | inside
    · exact .inl (.inl rfl)
    · exact (sums.loops v inside).imp_left fun inside => .inr (.inl inside)
    · exact .inl (.inr (.inr inside))
  ordered first second := by
    refine ⟨fun v inside => ?_, sums.ordered first.2 second⟩
    rcases List.mem_append.mp inside with inside | inside
    · rcases sums.loops v inside with inside | inside
      · exact first.1 v (List.mem_append_left _ inside)
      · exact below second v inside
    · exact first.1 v (List.mem_append_right _ inside)

theorem same_loop (lefts : Sums type code left0 left1 left)
    (rights : Sums type code right0 right1 right) :
    Sums type code (.poly var left0 right0) (.poly var left1 right1) (.poly var left right) where
  typed := ⟨lefts.typed, rights.typed⟩
  eval iteration := by
    simp only [Chrec.eval, lefts.eval, rights.eval, combine_sum]
    cases code <;> simp only [combine] <;> ring
  loops v inside := by
    simp only [Chrec.loops, List.mem_cons, List.mem_append] at inside ⊢
    rcases inside with rfl | inside | inside
    · exact .inl (.inl rfl)
    · exact (lefts.loops v inside).imp (.inr ∘ .inl) (.inr ∘ .inl)
    · exact (rights.loops v inside).imp (.inr ∘ .inr) (.inr ∘ .inr)
  ordered first second := by
    refine ⟨fun v inside => ?_, lefts.ordered first.2 second.2⟩
    rcases List.mem_append.mp inside with inside | inside
    · rcases lefts.loops v inside with inside | inside
      · exact first.1 v (List.mem_append_left _ inside)
      · exact second.1 v (List.mem_append_left _ inside)
    · rcases rights.loops v inside with inside | inside
      · exact first.1 v (List.mem_append_right _ inside)
      · exact second.1 v (List.mem_append_right _ inside)

theorem cancelled (sums : Sums type code (.poly var left0 right0) (.poly var left1 right1)
    (.poly var left right)) (ordered : left0.Ordered → left1.Ordered → left.Ordered)
    (zero : right.isZero = true) :
    Sums type code (.poly var left0 right0) (.poly var left1 right1) left where
  typed := sums.typed.1
  eval iteration := by
    rw [← sums.eval, Chrec.eval, Finset.sum_eq_zero fun j _ => Chrec.eval_of_isZero _ zero _,
      add_zero]
  loops v inside := sums.loops v (List.mem_cons_of_mem _ (List.mem_append_left _ inside))
  ordered first second := ordered first.2 second.2

end Sums

section Results

variable {type : CstType} {scevMaxExprSize : Nat} {p q : Chrec}

theorem movedRight_gives {code : StepCode} {negated : Chrec → Option Chrec}
    (moves : code = .minus → ∀ p, p.Typed type →
      Gives (2 < scevMaxExprSize) (negated p) (Moves type .minus p))
    (typed : p.Typed type) :
    Gives (2 < scevMaxExprSize) (movedRight code negated p) (Moves type code p) := by
  cases code with
  | plus => exact .of_some ⟨typed, fun _ => (zero_add _).symm, fun _ inside => inside⟩
  | minus => exact moves rfl p typed

theorem foldPlus1_gives {code : StepCode} {negated : Chrec → Option Chrec}
    (moves : code = .minus → ∀ p, p.Typed type →
      Gives (2 < scevMaxExprSize) (negated p) (Moves type .minus p))
    (pTyped : p.Typed type) (qTyped : q.Typed type) :
    Gives (2 < scevMaxExprSize) (foldPlus1 type scevMaxExprSize code negated p q)
      (Sums type code p q) := by
  fun_induction foldPlus1 type scevMaxExprSize code negated p q with
  | case1 op0 op1 zero =>
    obtain ⟨rfl, zero⟩ := zero
    exact .of_some (.of_zero_left zero qTyped)
  | case2 op0 op1 _ zero => exact .of_some (.of_zero_right zero pTyped)
  | case3 var0 left0 right0 var1 left1 right1 less _ _ ih =>
    refine (ih pTyped qTyped.1).build (movedRight_gives moves qTyped.2)
      fun left right sums moved => sums.into_second moved fun ordered v inside => ?_
    exact (ordered.le v inside).trans less.le
  | case4 var0 left0 right0 var1 left1 right1 _ less _ _ ih =>
    refine (ih pTyped.1 qTyped).build (.of_some rfl)
      fun left right sums same => same ▸ sums.into_first pTyped.2 fun ordered v inside => ?_
    exact (ordered.le v inside).trans less.le
  | case5 var0 left0 right0 var1 left1 right1 first second left right zero _ _ lefts rights =>
    obtain rfl : var0 = var1 := Nat.le_antisymm (Nat.le_of_not_lt second) (Nat.le_of_not_lt first)
    obtain ⟨r, isRight, zero⟩ := (Option.any_eq_true _ _).mp zero
    have rightSums := (rights pTyped.2 qTyped.2).1 r isRight
    refine (lefts pTyped.1 qTyped.1).mono fun l leftSums => ?_
    exact (leftSums.same_loop rightSums).cancelled leftSums.ordered zero
  | case6 var0 left0 right0 var1 left1 right1 first second left right zero _ _ lefts rights =>
    obtain rfl : var0 = var1 := Nat.le_antisymm (Nat.le_of_not_lt second) (Nat.le_of_not_lt first)
    exact (lefts pTyped.1 qTyped.1).build (rights pTyped.2 qTyped.2)
      fun left right leftSums rightSums => leftSums.same_loop rightSums
  | case7 var0 left0 right0 c1 _ _ ih =>
    exact (ih pTyped.1 qTyped).build (.of_some rfl)
      fun left right sums same => same ▸ sums.into_first pTyped.2 fun _ _ inside =>
        absurd inside List.not_mem_nil
  | case8 c0 var1 left1 right1 _ _ ih =>
    exact (ih pTyped qTyped.1).build (movedRight_gives moves qTyped.2)
      fun left right sums moved => sums.into_second moved fun _ _ inside =>
        absurd inside List.not_mem_nil
  | case9 c0 c1 _ _ _ =>
    exact .of_some ⟨type_foldConvert _ _, fun _ => cast_foldStep code type c0 c1,
      fun _ inside => absurd inside List.not_mem_nil, fun _ _ => trivial⟩
  | case10 c0 c1 small _ _ =>
    exact ⟨fun _ missing => absurd missing (by simp), fun large => absurd large small⟩

/-- `r` is the product of `p` with a constant. -/
structure Scales (type : CstType) (c : Cst) (p r : Chrec) : Prop where
  typed : r.Typed type
  eval : ∀ iteration, r.eval (2 ^ type.precision) iteration =
    p.eval (2 ^ type.precision) iteration * c.value
  loops : ∀ v ∈ r.loops, v ∈ p.loops

theorem value_of_isOne {c : Cst} (one : (Chrec.cst c).isOne = true) : c.value = 1 := by
  simp_all [Chrec.isOne]

theorem value_of_isZero {c : Cst} (zero : (Chrec.cst c).isZero = true) : c.value = 0 := by
  simp_all [Chrec.isZero, Cst.isZero]

theorem cast_buildIntCstType (type : CstType) (low : Int) (iteration : Nat → Nat) :
    (buildIntCstType type low).eval (2 ^ type.precision) iteration = low :=
  cast_wrap _ _ _

theorem cast_foldMult {c0 c1 : Cst} (typed : c0.type = type) :
    ((foldMult type c0 c1).value : ZMod (2 ^ type.precision)) = c0.value * c1.value := by
  subst typed
  rw [foldMult, cast_foldConvert]
  exact (cast_wrap _ _ _).trans (Int.cast_mul _ _)

theorem Scales.of_one {c : Cst} (one : c.value = 1) (typed : p.Typed type) : Scales type c p p where
  typed := typed
  eval iteration := by rw [one, Int.cast_one, mul_one]
  loops _ inside := inside

theorem Scales.of_zero {c : Cst}
    (zero : ∀ iteration, p.eval (2 ^ type.precision) iteration * c.value = 0) :
    Scales type c p (buildIntCstType type 0) where
  typed := rfl
  eval iteration := by rw [cast_buildIntCstType, zero, Int.cast_zero]
  loops _ inside := absurd inside List.not_mem_nil

theorem Scales.poly {c : Cst} {var : Nat} {left right l r : Chrec} (lefts : Scales type c left l)
    (rights : Scales type c right r) : Scales type c (.poly var left right) (.poly var l r) where
  typed := ⟨lefts.typed, rights.typed⟩
  eval iteration := by
    simp only [Chrec.eval, lefts.eval, rights.eval, ← Finset.sum_mul, add_mul]
  loops v inside := by
    simp only [Chrec.loops, List.mem_cons, List.mem_append] at inside ⊢
    exact inside.imp_right (Or.imp (lefts.loops v) (rights.loops v))

theorem chrecFoldMultiply_cst_cst {enough : Prop} {c0 c1 : Cst} (typed0 : c0.type = type)
    (typed1 : c1.type = type) :
    Gives enough (chrecFoldMultiply type scevMaxExprSize (.cst c0) (.cst c1))
      (Scales type c1 (.cst c0)) := by
  rw [chrecFoldMultiply]
  split_ifs with one0 zero0 one1 zero1
  · refine .of_some ⟨typed1, fun iteration => ?_, fun _ inside => inside⟩
    simp only [Chrec.eval, value_of_isOne one0, Int.cast_one, one_mul]
  · exact .of_some (.of_zero fun iteration => by simp [Chrec.eval, value_of_isZero zero0])
  · exact .of_some (.of_one (value_of_isOne one1) typed0)
  · exact .of_some (.of_zero fun iteration => by simp [value_of_isZero zero1])
  · exact .of_some ⟨(type_foldConvert _ _), fun iteration => cast_foldMult typed0,
      fun _ inside => inside⟩

theorem chrecFoldMultiply_cst {enough : Prop} {c : Cst} (pTyped : p.Typed type)
    (cTyped : c.type = type) :
    Gives enough (chrecFoldMultiply type scevMaxExprSize p (.cst c)) (Scales type c p) := by
  induction p with
  | cst c0 => exact chrecFoldMultiply_cst_cst pTyped cTyped
  | poly var left right leftIh rightIh =>
    rw [chrecFoldMultiply]
    split_ifs with one zero
    · exact .of_some (.of_one (value_of_isOne one) pTyped)
    · exact .of_some (.of_zero fun iteration => by simp [value_of_isZero zero])
    · exact (leftIh pTyped.1).build (rightIh pTyped.2) fun l r lefts rights =>
        lefts.poly rights

theorem cst_chrecFoldMultiply {enough : Prop} {c : Cst} (cTyped : c.type = type)
    (pTyped : p.Typed type) :
    Gives enough (chrecFoldMultiply type scevMaxExprSize (.cst c) p) (Scales type c p) := by
  cases p with
  | cst c1 =>
    refine (chrecFoldMultiply_cst_cst cTyped pTyped).mono fun r scales =>
      ⟨scales.typed, fun iteration => ?_, scales.loops⟩
    rw [scales.eval, Chrec.eval, Chrec.eval, mul_comm]
  | poly var left right =>
    rw [chrecFoldMultiply]
    split_ifs with one zero
    · exact .of_some (.of_one (value_of_isOne one) pTyped)
    · exact .of_some (.of_zero fun iteration => by simp [value_of_isZero zero])
    · exact (chrecFoldMultiply_cst pTyped.1 cTyped).build (chrecFoldMultiply_cst pTyped.2 cTyped)
        fun l r lefts rights => lefts.poly rights

theorem negated_gives {enough : Prop} (typed : p.Typed type) :
    Gives enough (chrecFoldMultiply type scevMaxExprSize p (buildIntCstType type (-1)))
      (Moves type .minus p) := by
  refine (chrecFoldMultiply_cst typed rfl).mono fun r scales =>
    ⟨scales.typed, fun iteration => ?_, scales.loops⟩
  have minusOne := cast_wrap type.unsigned type.precision (-1)
  rw [scales.eval, combine, minusOne, Int.cast_neg, Int.cast_one, mul_neg_one, zero_sub]

theorem chrecFoldPlus_gives (pTyped : p.Typed type) (qTyped : q.Typed type) :
    Gives (2 < scevMaxExprSize) (chrecFoldPlus type scevMaxExprSize p q) (Sums type .plus p q) :=
  foldPlus1_gives (fun difference => absurd difference (by decide)) pTyped qTyped

theorem chrecFoldMinus_gives (pTyped : p.Typed type) (qTyped : q.Typed type) :
    Gives (2 < scevMaxExprSize) (chrecFoldMinus type scevMaxExprSize p q)
      (Sums type .minus p q) :=
  foldPlus1_gives (fun _ _ typed => negated_gives typed) pTyped qTyped

/-- Sums and differences of chains: they are chains of the type with the value of
the sum and of the difference in every iteration, and their recurrences stay
ordered by the loops; only a bound on expressions below three nodes makes them
unknown. -/
theorem sum_and_difference (pTyped : p.Typed type) (qTyped : q.Typed type) :
    Gives (2 < scevMaxExprSize) (chrecFoldPlus type scevMaxExprSize p q)
        (Sums type .plus p q) ∧
      Gives (2 < scevMaxExprSize) (chrecFoldMinus type scevMaxExprSize p q)
        (Sums type .minus p q) :=
  ⟨chrecFoldPlus_gives pTyped qTyped, chrecFoldMinus_gives pTyped qTyped⟩

/-- `{0, +, 1}_1 + {2, +, 3}_2`. -/
theorem sum_and_difference_two_loops :
    Gives (2 < 20)
      (chrecFoldPlus intType 20 (.poly 1 (buildIntCstType intType 0) (buildIntCstType intType 1))
        (.poly 2 (buildIntCstType intType 2) (buildIntCstType intType 3)))
      (Sums intType .plus
        (.poly 1 (buildIntCstType intType 0) (buildIntCstType intType 1))
        (.poly 2 (buildIntCstType intType 2) (buildIntCstType intType 3))) :=
  (sum_and_difference (by exact ⟨rfl, rfl⟩) (by exact ⟨rfl, rfl⟩)).1

/-- The outermost recurrence is in the largest loop. -/
def Chrec.Outermost : Chrec → Prop
  | .cst _ => True
  | .poly var left right => ∀ v ∈ left.loops ++ right.loops, v ≤ var

instance (p : Chrec) : Decidable p.Outermost :=
  match p with
  | .cst _ => isTrue trivial
  | .poly _ _ _ => inferInstanceAs (Decidable (∀ v ∈ _, v ≤ _))

/-- `{{0, +, {0, +, 1}_2}_1, +, 1}_3 + {0, +, -1}_3` is `{0, +, {0, +, 1}_2}_1`. -/
theorem chrecFoldPlus_not_outermost :
    let number := fun n => buildIntCstType intType n
    let inner := Chrec.poly 1 (number 0) (.poly 2 (number 0) (number 1))
    let p := Chrec.poly 3 inner (number 1)
    let q := Chrec.poly 3 (number 0) (number (-1))
    p.Typed intType ∧ q.Typed intType ∧ p.Outermost ∧ q.Outermost ∧
      chrecFoldPlus intType 20 p q = some inner ∧ ¬inner.Outermost := by
  intro number inner p q
  refine ⟨by simp [p, inner, number, Chrec.Typed, buildIntCstType],
    by simp [q, number, Chrec.Typed, buildIntCstType], by decide, by decide, ?_, by decide⟩
  have left : foldPlus1 intType 20 .plus some inner (number 0) = some inner := by
    rw [foldPlus1.eq_def, if_neg (by decide), if_pos (by decide)]
  have right : (foldPlus1 intType 20 .plus some (number 1) (number (-1))).any Chrec.isZero := by
    rw [foldPlus1.eq_def, if_neg (by decide), if_neg (by decide)]
    rfl
  rw [chrecFoldPlus, foldPlus1, if_neg (by decide), if_neg (by decide)]
  refine (if_neg (Nat.lt_irrefl 3)).trans ((if_neg (Nat.lt_irrefl 3)).trans ?_)
  exact (if_pos right).trans left

end Results
end GccCil.Gcc.Scev
