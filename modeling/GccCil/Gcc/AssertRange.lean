import Mathlib.Tactic
import GccCil.Gcc.RangeArithmetic

/-!
# Value ranges from assertions

`extract_range_from_assert` of `tree-vrp.c` for variables of integer type.  A
limit without a useful range of its own leaves a bound that is the limit
itself.
-/

namespace GccCil.Gcc.Vrp

open GccCil.Lib

inductive CompareCode where
  | eq | ne | lt | le | gt | ge
  deriving DecidableEq, Repr

def CompareCode.Holds : CompareCode → Int → Int → Prop
  | .eq, x, y => x = y
  | .ne, x, y => x ≠ y
  | .lt, x, y => x < y
  | .le, x, y => x ≤ y
  | .gt, x, y => y < x
  | .ge, x, y => y ≤ x

def swapTreeComparison : CompareCode → CompareCode
  | .eq => .eq
  | .ne => .ne
  | .lt => .gt
  | .le => .ge
  | .gt => .lt
  | .ge => .le

/-- An integer type whose values may be restricted more than its precision does. -/
structure BoundedType extends IntType where
  typeMin : Int
  typeMax : Int
  -- `TREE_TYPE` of the type
  superType : Bool
  min_le : toIntType.minValue ≤ typeMin
  le_max : typeMax ≤ toIntType.maxValue

def BoundedType.HasValue (type : BoundedType) (value : Int) : Prop :=
  type.typeMin ≤ value ∧ value ≤ type.typeMax

/-- An operand of a comparison: a constant or an SSA name. -/
inductive Operand where
  | cst (c : Cst)
  | name (version : Nat)
  deriving DecidableEq, Repr

/-- A bound of a range: an operand, or a name and a constant. -/
inductive Bound where
  | operand (op : Operand)
  | minus (version : Nat) (c : Int)
  | plus (version : Nat) (c : Int)
  deriving DecidableEq, Repr

/-- `value_range_t` -/
inductive StoredRange where
  | undefined
  | varying
  | bounds (kind : RangeKind) (min max : Bound)
  deriving DecidableEq, Repr

def StoredRange.constants : StoredRange → Option (RangeKind × Cst × Cst)
  | .bounds kind (.operand (.cst min)) (.operand (.cst max)) => some (kind, min, max)
  | _ => none

/-- `value_inside_range` -/
def cstInsideRange (val min max : Cst) : Int :=
  let cmp1 := compareValues val min
  let cmp2 := compareValues val max
  if cmp1 = -2 ∨ cmp1 = 2 then -2
  else if cmp2 = -2 ∨ cmp2 = 2 then -2
  else if (cmp1 = 0 ∨ cmp1 = 1) ∧ (cmp2 = -1 ∨ cmp2 = 0) then 1
  else 0

def valueRangesIntersectP (min0 max0 min1 max1 : Cst) : Bool :=
  cstInsideRange min1 min0 max0 == 1 || cstInsideRange max1 min0 max0 == 1 ||
    cstInsideRange min0 min1 max1 == 1 || cstInsideRange max0 min1 max1 == 1

section Extract

variable (hostBits : Nat) (type : BoundedType)

def limitBeyondType (code : CompareCode) (limit : Operand) : Bool :=
  match limit with
  | .name _ => false
  | .cst c =>
    match code with
    | .le | .lt =>
      let cmp := compareValues c ⟨type.typeMin, false⟩
      cmp == -1 || cmp == 0
    | .ge | .gt =>
      -- the source takes the least value here, too
      let typeMax := type.typeMin
      let cmp := compareValues c ⟨typeMax, false⟩
      cmp == 1 || cmp == 0
    | .eq | .ne => false

def foldOne (code : ArithCode) (op : Operand) : Bound :=
  match op with
  | .cst c =>
    let res := intConstBinop hostBits type.toIntType code c.value 1
    .operand (.cst ⟨res.value, res.overflow || c.overflow⟩)
  | .name version => if code = .minus then .minus version 1 else .plus version 1

def leastLimit (limit : Operand) (limitVr : Option (RangeKind × Cst × Cst)) : Operand :=
  match limitVr with
  | some (.range, min, _) => .cst min
  | _ => limit

def greatestLimit (limit : Operand) (limitVr : Option (RangeKind × Cst × Cst)) : Operand :=
  match limitVr with
  | some (.range, _, max) => .cst max
  | _ => limit

def singleLimit (limit : Operand) (limitVr : Option (RangeKind × Cst × Cst)) :
    Operand × Operand :=
  match limitVr with
  | some (.range, min, max) =>
    if compareValues min max = 0 then (.cst min, .cst max) else (limit, limit)
  | _ => (limit, limit)

def predicateRange (code : CompareCode) (limit : Operand)
    (limitVr : Option (RangeKind × Cst × Cst)) : StoredRange :=
  match code with
  | .eq =>
    match limitVr with
    | some (kind, min, max) => .bounds kind (.operand (.cst min)) (.operand (.cst max))
    | none => .bounds .range (.operand limit) (.operand limit)
  | .ne =>
    let (min, max) := singleLimit limit limitVr
    -- bounds that cover the whole type
    if min = .cst ⟨type.typeMin, false⟩ ∧ max = .cst ⟨type.typeMax, false⟩ then
      .bounds .antiRange (.operand limit) (.operand limit)
    else .bounds .antiRange (.operand min) (.operand max)
  | .le =>
    .bounds .range (.operand (.cst ⟨type.typeMin, false⟩))
      (.operand (greatestLimit limit limitVr))
  | .lt =>
    .bounds .range (.operand (.cst ⟨type.typeMin, false⟩))
      (foldOne hostBits type .minus (greatestLimit limit limitVr))
  | .ge =>
    .bounds .range (.operand (leastLimit limit limitVr))
      (.operand (.cst ⟨type.typeMax, false⟩))
  | .gt =>
    .bounds .range (foldOne hostBits type .plus (leastLimit limit limitVr))
      (.operand (.cst ⟨type.typeMax, false⟩))

def refineRange (vr varVr : StoredRange) : StoredRange :=
  match vr.constants, varVr.constants with
  | some (kind, min, max), some (varKind, varMin, varMax) =>
    if varKind = .range ∧ kind = .range then
      if valueRangesIntersectP varMin varMax min max then
        .bounds .range
          -- the larger minimum
          (.operand (.cst (if compareValues min varMin = -1 then varMin else min)))
          -- the smaller maximum
          (.operand (.cst (if compareValues max varMax = 1 then varMax else max)))
      else .varying
    else if varKind ≠ kind ∧ compareValues varMin min = 0 ∧ compareValues varMax max = 0 then
      .varying
    else vr
  | _, _ => vr

def limitRange (ranges : Nat → StoredRange) (limit : Operand) : Option (RangeKind × Cst × Cst) :=
  match limit with
  | .name version => (ranges version).constants
  | .cst _ => none

/-- `extract_range_from_assert` of the assertion `op0 code op1` about `var`; `ranges` is
`get_value_range`. -/
def extractRangeFromAssert (ranges : Nat → StoredRange) (var : Nat) (code : CompareCode)
    (op0 op1 : Operand) : Option StoredRange :=
  let limit := if op0 = .name var then op1 else op0
  let code := if op0 = .name var then code else swapTreeComparison code
  if limit = .name var then none
  else
    if type.superType && limitBeyondType type code limit then some .varying
    else some (refineRange (predicateRange hostBits type code limit (limitRange ranges limit))
      (ranges var))

end Extract

def Operand.value (values : Nat → Int) : Operand → Int
  | .cst c => c.value
  | .name version => values version

def Bound.value (type : IntType) (values : Nat → Int) : Bound → Int
  | .operand op => op.value values
  | .minus version c => wrap type.unsigned type.precision (values version - c)
  | .plus version c => wrap type.unsigned type.precision (values version + c)

def StoredRange.Contains (type : IntType) (values : Nat → Int) : StoredRange → Int → Prop
  | .undefined, _ => False
  | .varying, _ => True
  | .bounds kind min max, value =>
    (ValueRange.bounds kind (min.value type values) (max.value type values)).Contains value

def StoredRange.Typed (type : IntType) (range : StoredRange) : Prop :=
  ∀ kind min max, range.constants = some (kind, min, max) →
    type.Contains min.value ∧ type.Contains max.value

section Soundness

variable {hostBits : Nat} {type : BoundedType} {values : Nat → Int} {code : CompareCode}
  {limit : Operand} {x : Int}

theorem swapTreeComparison_holds (x y : Int) :
    (swapTreeComparison code).Holds x y ↔ code.Holds y x := by
  cases code with
  | eq => exact eq_comm
  | ne => exact ne_comm
  | lt | le | gt | ge => exact Iff.rfl

theorem constants_eq {range : StoredRange} {kind : RangeKind} {min max : Cst}
    (constants : range.constants = some (kind, min, max)) :
    range = .bounds kind (.operand (.cst min)) (.operand (.cst max)) := by
  unfold StoredRange.constants at constants
  split at constants
  · cases constants
    rfl
  · cases constants

theorem compareValues_eq_zero {min max : Cst} (same : compareValues min max = 0) :
    min.value = max.value := by
  rw [compareValues] at same
  split at same
  · cases same
  · split at same
    · cases same
    · split at same
      · assumption
      · cases same

theorem foldOne_minus {op : Operand} (typed : type.Contains (op.value values))
    (above : x < op.value values) (lower : type.minValue ≤ x) :
    (foldOne hostBits type .minus op).value type.toIntType values = op.value values - 1 := by
  have fits : type.Contains (op.value values - 1) := ⟨by omega, by have := typed.2; omega⟩
  cases op with
  | cst c => exact IntType.wrap_eq fits
  | name version => exact IntType.wrap_eq fits

theorem foldOne_plus {op : Operand} (typed : type.Contains (op.value values))
    (below : op.value values < x) (upper : x ≤ type.maxValue) :
    (foldOne hostBits type .plus op).value type.toIntType values = op.value values + 1 := by
  have fits : type.Contains (op.value values + 1) := ⟨by have := typed.1; omega, by omega⟩
  cases op with
  | cst c => exact IntType.wrap_eq fits
  | name version => exact IntType.wrap_eq fits

/-- What is known of the limit: its value is one of the type and in its range. -/
structure LimitKnown (type : BoundedType) (values : Nat → Int) (limit : Operand)
    (limitVr : Option (RangeKind × Cst × Cst)) : Prop where
  typed : type.Contains (limit.value values)
  inside : ∀ kind min max, limitVr = some (kind, min, max) →
    (ValueRange.bounds kind min.value max.value).Contains (limit.value values) ∧
      type.Contains min.value ∧ type.Contains max.value

section Limits

variable {limitVr : Option (RangeKind × Cst × Cst)}
  (known : LimitKnown type values limit limitVr)
include known

theorem leastLimit_le : (leastLimit limit limitVr).value values ≤ limit.value values ∧
    type.Contains ((leastLimit limit limitVr).value values) := by
  unfold leastLimit
  split
  · next min max =>
      obtain ⟨inside, minIn, -⟩ := known.inside _ min max rfl
      exact ⟨inside.1, minIn⟩
  · exact ⟨le_rfl, known.typed⟩

theorem le_greatestLimit : limit.value values ≤ (greatestLimit limit limitVr).value values ∧
    type.Contains ((greatestLimit limit limitVr).value values) := by
  unfold greatestLimit
  split
  · next min max =>
      obtain ⟨inside, -, maxIn⟩ := known.inside _ min max rfl
      exact ⟨inside.2, maxIn⟩
  · exact ⟨le_rfl, known.typed⟩

theorem singleLimit_eq : (singleLimit limit limitVr).1.value values = limit.value values ∧
    (singleLimit limit limitVr).2.value values = limit.value values := by
  unfold singleLimit
  split
  · next min max =>
      obtain ⟨⟨above, below⟩, -⟩ := known.inside _ min max rfl
      split
      · next same =>
          have equal := compareValues_eq_zero same
          change min.value = _ ∧ max.value = _
          exact ⟨by omega, by omega⟩
      · exact ⟨rfl, rfl⟩
  · exact ⟨rfl, rfl⟩

theorem predicateRange_contains (value : type.HasValue x)
    (holds : code.Holds x (limit.value values)) :
    (predicateRange hostBits type code limit limitVr).Contains type.toIntType values x := by
  obtain ⟨lower, upper⟩ := value
  have least := type.min_le
  have greatest := type.le_max
  cases code with
  | eq =>
    change x = _ at holds
    unfold predicateRange
    cases limitVr with
    | none => exact ⟨holds.ge, holds.le⟩
    | some range =>
      obtain ⟨kind, min, max⟩ := range
      rw [holds]
      exact (known.inside kind min max rfl).1
  | ne =>
    change x ≠ _ at holds
    obtain ⟨minEq, maxEq⟩ := singleLimit_eq known
    unfold predicateRange
    dsimp only
    split
    · exact lt_or_gt_of_ne holds
    · change x < (singleLimit limit limitVr).1.value values ∨
        (singleLimit limit limitVr).2.value values < x
      rw [minEq, maxEq]
      exact lt_or_gt_of_ne holds
  | le =>
    change x ≤ _ at holds
    exact ⟨lower, holds.trans (le_greatestLimit known).1⟩
  | lt =>
    change x < _ at holds
    obtain ⟨above, typed⟩ := le_greatestLimit known
    refine ⟨lower, ?_⟩
    rw [@foldOne_minus hostBits type values x _ typed (by omega) (by omega)]
    omega
  | ge =>
    change _ ≤ x at holds
    exact ⟨(leastLimit_le known).1.trans holds, upper⟩
  | gt =>
    change _ < x at holds
    obtain ⟨below, typed⟩ := leastLimit_le known
    refine ⟨?_, upper⟩
    rw [@foldOne_plus hostBits type values x _ typed (by omega) (by omega)]
    omega

end Limits

theorem refineRange_contains {vr varVr : StoredRange}
    (inNew : vr.Contains type.toIntType values x) (inOld : varVr.Contains type.toIntType values x) :
    (refineRange vr varVr).Contains type.toIntType values x := by
  unfold refineRange
  split
  · next kind min max varKind varMin varMax newConstants oldConstants =>
      split
      · next ranges =>
          obtain ⟨rfl, rfl⟩ := ranges
          rw [constants_eq newConstants] at inNew
          rw [constants_eq oldConstants] at inOld
          split
          · refine ⟨?_, ?_⟩
            · split
              · exact inOld.1
              · exact inNew.1
            · split
              · exact inOld.2
              · exact inNew.2
          · trivial
      · split
        · trivial
        · exact inNew
  · exact inNew

/-- What VRP knows of an operand: it has a value of the type, which lies in the range of a name. -/
structure OperandKnown (type : BoundedType) (ranges : Nat → StoredRange) (values : Nat → Int)
    (op : Operand) : Prop where
  typed : type.Contains (op.value values)
  rangeTyped : ∀ version, op = .name version → (ranges version).Typed type.toIntType
  inside : ∀ version, op = .name version →
    (ranges version).Contains type.toIntType values (values version)

theorem OperandKnown.limitKnown {ranges : Nat → StoredRange}
    (known : OperandKnown type ranges values limit) :
    LimitKnown type values limit (limitRange ranges limit) := by
  refine ⟨known.typed, fun kind min max constants => ?_⟩
  cases limit with
  | cst c => cases constants
  | name version =>
    have inside := known.inside version rfl
    rw [constants_eq constants] at inside
    exact ⟨inside, known.rangeTyped version rfl kind min max constants⟩

/-- The stored range holds the value of the variable, for all values that satisfy the assertion and
lie in the ranges of their names, whichever side the variable is on. -/
theorem extractRangeFromAssert_contains (hostBits : Nat) (type : BoundedType)
    (ranges : Nat → StoredRange) (values : Nat → Int) {var : Nat} {code : CompareCode}
    {op0 op1 : Operand} (side : op0 = .name var ∨ op1 = .name var) (different : op0 ≠ op1)
    (value : type.HasValue (values var)) (known0 : OperandKnown type ranges values op0)
    (known1 : OperandKnown type ranges values op1)
    (asserted : code.Holds (op0.value values) (op1.value values)) :
    ∃ range, extractRangeFromAssert hostBits type ranges var code op0 op1 = some range ∧
      range.Contains type.toIntType values (values var) := by
  have stored : ∀ code limit, LimitKnown type values limit (limitRange ranges limit) →
      code.Holds (values var) (limit.value values) →
      (ranges var).Contains type.toIntType values (values var) →
      ∃ range, (if type.superType && limitBeyondType type code limit then some .varying
        else some (refineRange (predicateRange hostBits type code limit (limitRange ranges limit))
          (ranges var))) = some range ∧ range.Contains type.toIntType values (values var) := by
    intro code limit limitKnown holds inOld
    split
    · exact ⟨.varying, rfl, trivial⟩
    · exact ⟨_, rfl, refineRange_contains (predicateRange_contains limitKnown value holds) inOld⟩
  rw [extractRangeFromAssert]
  by_cases first : op0 = .name var
  · have other : ¬ op1 = .name var := fun second => different (first.trans second.symm)
    rw [if_pos first, if_pos first, if_neg other]
    refine stored code op1 known1.limitKnown ?_ (known0.inside var first)
    rwa [first] at asserted
  · have second := side.resolve_left first
    rw [if_neg first, if_neg first, if_neg first]
    refine stored _ op0 known0.limitKnown ?_ (known1.inside var second)
    rw [swapTreeComparison_holds]
    rwa [second] at asserted

/-- `0 > i`, where `i` is known to be at most 9. -/
theorem extractRangeFromAssert_contains_negative :
    ∃ range, extractRangeFromAssert 32
        ⟨⟨false, 8, by decide⟩, -128, 127, false, by decide, by decide⟩
        (fun _ => .bounds .range (.operand (.cst ⟨-128, false⟩)) (.operand (.cst ⟨9, false⟩)))
        1 .gt (.cst ⟨0, false⟩) (.name 1) = some range ∧
      range.Contains ⟨false, 8, by decide⟩ (fun _ => -3) (-3) := by
  refine @extractRangeFromAssert_contains 32
    ⟨⟨false, 8, by decide⟩, -128, 127, false, by decide, by decide⟩ _ (fun _ => -3) 1 .gt
    (.cst ⟨0, false⟩) (.name 1) (Or.inr rfl) (by decide) ⟨by decide, by decide⟩ ?_ ?_ ?_
  · refine ⟨by decide, ?_, ?_⟩
    · rintro version ⟨⟩
    · rintro version ⟨⟩
  · refine ⟨by decide, fun _ _ kind min max constants => ?_, fun _ _ => ⟨by decide, by decide⟩⟩
    cases constants
    exact ⟨by decide, by decide⟩
  · change (-3 : Int) < 0
    decide

end Soundness

end GccCil.Gcc.Vrp
