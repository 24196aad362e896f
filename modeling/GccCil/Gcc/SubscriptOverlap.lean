import GccCil.Gcc.LambdaMatrix

/-!
# Overlaps of affine subscripts

The part of `tree-data-ref.c` that finds the iterations in which two affine
univariate access functions touch the same element.  No arithmetic of the
analysis overflows.
-/

namespace GccCil.Gcc.Subscript

open GccCil.Gcc.Lambda

/-- A univariate access function, the chrec `{init, +, step}_loop`. -/
structure AffineChrec where
  loop : Nat
  init : Int
  step : Int
  deriving DecidableEq, Repr

def AffineChrec.subscript (chrec : AffineChrec) (iteration : Int) : Int :=
  chrec.init + chrec.step * iteration

inductive OverlapFunction where
  | constant (value : Int)
  | polynomial (init step : Int)
  deriving DecidableEq, Repr

/-- The iteration of the overlap `k`. -/
def OverlapFunction.iteration : OverlapFunction → Int → Int
  | .constant value, _ => value
  | .polynomial init step, k => init + step * k

/-- What the analysis answers in `overlaps_a`, `overlaps_b` and `last_conflicts`. -/
inductive Overlaps where
  /-- There is no overlap. -/
  | chrecKnown
  | chrecDontKnow
  /-- No number of the last conflict stands for `chrec_dont_know`. -/
  | functions (overlapsA overlapsB : OverlapFunction) (lastConflicts : Option Int)
  deriving DecidableEq, Repr

/-- The loop of `gcd`. -/
def gcdLoop (x y : Nat) : Nat :=
  if 0 < x then gcdLoop (y % x) x else y
termination_by x
decreasing_by exact Nat.mod_lt y ‹_›

def gcd (a b : Int) : Int := gcdLoop a.natAbs b.natAbs

def intDividesP (a b : Int) : Bool := b.tmod a == 0

/-- `FLOOR_DIV`, the division of C -/
def floorDiv (x y : Int) : Int := x.tdiv y

def ceil (x y : Int) : Int := (x + y - 1).tdiv y

def computeOverlapStepsForAffineUnivar (niter stepA stepB : Int) : Overlaps :=
  if (0 < stepA ∧ 0 < stepB) ∨ (stepA < 0 ∧ stepB < 0) then
    let gcdStepsAB := gcd stepA stepB
    let stepOverlapsA := stepB.tdiv gcdStepsAB
    let stepOverlapsB := stepA.tdiv gcdStepsAB
    let tau2 := min (floorDiv niter stepOverlapsA) (floorDiv niter stepOverlapsB)
    .functions (.polynomial 0 stepOverlapsA) (.polynomial 0 stepOverlapsB) (some tau2)
  else .functions (.constant 0) (.constant 0) (some 0)

/-- The column of the steps that `initialize_matrix_A` fills. -/
def matrixA (stepA stepB : Int) : LambdaMatrix := fun i j =>
  if j = 0 then if i = 0 then stepA else if i = 1 then -stepB else 0 else 0

def reduceSteps (stepA stepB : Int) : Int × LambdaMatrix :=
  let (S, U) := rightHermite (matrixA stepA stepB) 2 1
  if S 0 0 < 0 then (-S 0 0, rowNegate U 2 0) else (S 0 0, U)

/-- The first and the last solution on the line `(i0, j0) + t * (i1, j1)`, for
positive `i1` and `j1`. -/
def overlapsOnLine (niter i0 j0 i1 j1 : Int) : Overlaps :=
  let tau1 := max (ceil (-i0) i1) (ceil (-j0) j1)
  let tau2 := min (floorDiv (niter - i0) i1) (floorDiv (niter - j0) j1)
  let x0 := i1 * tau1 + i0
  let y0 := j1 * tau1 + j0
  -- the smallest positive solution
  let minMultiple := min (x0.tdiv i1) (y0.tdiv j1)
  let x0 := x0 - i1 * minMultiple
  let y0 := y0 - j1 * minMultiple
  let tau1 := (x0 - i0).tdiv i1
  let lastConflict := tau2 - tau1
  if x0 > niter ∨ y0 > niter then .chrecKnown
  else .functions (.polynomial x0 i1) (.polynomial y0 j1) (some lastConflict)

/-- `analyze_subscript_affine_affine` for univariate access functions;
`numberOfIters` is `get_number_of_iters_for_loop`. -/
def analyzeSubscriptAffineAffine (numberOfIters : Nat → Option Int) (chrecA chrecB : AffineChrec) :
    Overlaps :=
  -- the difference is zero
  if chrecA = chrecB then .functions (.constant 0) (.constant 0) none
  else
    let stepA := chrecA.step
    let stepB := chrecB.step
    let gamma := chrecB.init - chrecA.init
    if gamma = 0 then
      match numberOfIters chrecA.loop, numberOfIters chrecB.loop with
      | some niterA, some niterB =>
        computeOverlapStepsForAffineUnivar (min niterA niterB) stepA stepB
      | _, _ => .chrecDontKnow
    else
      let (gcdAlphaBeta, U) := reduceSteps stepA stepB
      if intDividesP gcdAlphaBeta gamma = false then .chrecKnown
      else if (0 < stepA ∧ 0 < stepB) ∨ (stepA < 0 ∧ stepB < 0) then
        match numberOfIters chrecA.loop, numberOfIters chrecB.loop with
        | some niterA, some niterB =>
          let niter := min niterA niterB
          let i0 := (U 0 0 * gamma).tdiv gcdAlphaBeta
          let j0 := (U 0 1 * gamma).tdiv gcdAlphaBeta
          let i1 := U 1 0
          let j1 := U 1 1
          if (i1 = 0 ∧ i0 < 0) ∨ (j1 = 0 ∧ j0 < 0) then .chrecKnown
          else if 0 < i1 then
            if 0 < j1 then overlapsOnLine niter i0 j0 i1 j1 else .chrecDontKnow
          else .chrecDontKnow
        | _, _ => .chrecDontKnow
      else .chrecDontKnow

end GccCil.Gcc.Subscript
