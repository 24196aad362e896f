import GccCil.Gcc.MergeRanges

/-!
# Range checks

`build_range_check` of `fold-const.c` builds a test of whether an expression is in
a range.  It subtracts the lower bound and compares with the distance of the
bounds, which asks for arithmetic that wraps around.  A signed type is left for an
unsigned one only if the greatest value of the type is just before its least one;
where that is not so, the difference is built in the signed type nevertheless.
-/

namespace GccCil.Gcc.RangeTest

open GccCil.Lib OpenBounds

/-- The type that an integer type is a subrange of, if there is one, and the hooks that
give the unsigned and the signed type that is the same as a type in other respects. -/
structure TypeHooks where
  treeType : CstType → Option CstType
  unsignedType : CstType → CstType
  signedType : CstType → CstType
  hasValue_treeType : ∀ {type base : CstType} {v : Int}, treeType type = some base →
    type.HasValue v → base.HasValue v
  unsigned_unsignedType : ∀ type, (unsignedType type).unsigned = true
  precision_unsignedType : ∀ type, (unsignedType type).precision = type.precision
  unsigned_signedType : ∀ type, (signedType type).unsigned = false
  precision_signedType : ∀ type, (signedType type).precision = type.precision
  treeType_unsignedType : ∀ type, unsignedType type = type ∨ treeType (unsignedType type) = none

/-- The expression that is tested, and what the test computes from it. -/
inductive Operand where
  | exp (type : CstType)
  | convert (type : CstType) (arg : Operand)
  | minus (type : CstType) (arg0 : Operand) (arg1 : Cst)
  deriving DecidableEq

namespace Operand

def type : Operand → CstType
  | exp type | convert type _ | minus type _ _ => type

/-- `fold_convert` of an expression. -/
def foldConvert (type : CstType) (arg : Operand) : Operand :=
  if type = arg.type then arg else convert type arg

/-- The value of an operand; a difference of a signed type that overflows has one
only with `-fwrapv`. -/
def eval (wrapv : Bool) (v : Int) : Operand → Option Int
  | exp _ => some v
  | convert type arg => (arg.eval wrapv v).map type.reduce
  | minus type arg0 arg1 =>
    (arg0.eval wrapv v).bind fun x =>
      if type.unsigned || wrapv || decide (type.toIntType.Contains (x - arg1.value)) then
        some (type.reduce (x - arg1.value))
      else none

end Operand

inductive Check where
  | truth (value : Bool)
  | compare (code : CompareCode) (arg0 : Operand) (arg1 : Cst)
  deriving DecidableEq

def Check.eval (wrapv : Bool) (v : Int) : Check → Option Bool
  | truth value => some value
  | compare code arg0 arg1 => (arg0.eval wrapv v).map fun x => code.holds x arg1.value

/-- `invert_tree_comparison`, without NaNs. -/
def CompareCode.inverse : CompareCode → CompareCode
  | .eq => .ne
  | .ne => .eq
  | .gt => .le
  | .ge => .lt
  | .lt => .ge
  | .le => .gt

def Check.invertTruthvalue : Check → Check
  | truth value => truth !value
  | compare code arg0 arg1 => compare code.inverse arg0 arg1

/-- `integer_onep`. -/
def Cst.isOne (c : Cst) : Bool := !c.constantOverflow && c.value == 1

/-- `operand_equal_p` of constants, which may be one node. -/
def operandEqualP (sameNode : Bool) (arg0 arg1 : Cst) : Bool :=
  sameNode || arg0.type.unsigned == arg1.type.unsigned &&
    arg0.type.modeBits == arg1.type.modeBits && !arg0.constantOverflow &&
    !arg1.constantOverflow && arg0.value == arg1.value

/-- `const_binop` of a difference. -/
def constMinus (arg0 arg1 : Cst) : Cst :=
  forceFit arg0.type (arg0.value - arg1.value) true (arg0.overflow || arg1.overflow)
    (arg0.constantOverflow || arg1.constantOverflow)

section Check

variable (hooks : TypeHooks) (integerTypeNode : CstType) (wrapv : Bool)

def wrapsAround (type : CstType) : Bool :=
  let utype := hooks.unsignedType type
  let maxv := rangeBinop .plus none
    (some (foldConvert utype { type := type, value := type.typeMax }))
    (some (integerOneNode integerTypeNode))
  let minv := foldConvert utype { type := type, value := type.typeMin }
  !rangeCompare .ne (some minv) true maxv true

def baseType (type : CstType) : CstType := (hooks.treeType type).getD type

def TypeCode.checked : TypeCode → Bool
  | integer | enumeral | char => true
  | boolean | pointer => false

/-- What the difference is built from: its type, the expression, the lower bound, and
the distance of the bounds. -/
structure Difference where
  etype : CstType
  exp : Operand
  low : Cst
  value : Cst

def forceUnsigned (exp : Operand) (low high : Cst) : Difference :=
  let etype := exp.type
  let value := constMinus high low
  let unchanged : Difference := { etype, exp, low, value }
  if (!wrapv || value.overflow) && !etype.unsigned then
    if etype.code.checked then
      let etype := baseType hooks etype
      let utype := hooks.unsignedType etype
      if wrapsAround hooks integerTypeNode etype then
        { etype := utype, exp := exp.foldConvert utype, low := foldConvert utype low
          value := constMinus (foldConvert utype high) (foldConvert utype low) }
      else { unchanged with etype }
    else unchanged
  else unchanged

/-- The subtraction is done in the type of which the type is a subrange. -/
def Difference.inBase (difference : Difference) : Difference :=
  match hooks.treeType difference.etype with
  | some base =>
    { etype := base, exp := difference.exp.foldConvert base
      low := foldConvert base difference.low, value := foldConvert base difference.value }
  | none => difference

/-- `(1 << (prec - 1)) - 1` -/
def greatestPositive (type : CstType) : Int := 2 ^ (type.precision - 1) - 1

/-- `build_range_check`, with a bound on the depth of the calls.  `sameNode` says
whether the bounds are one node. -/
def buildRangeCheckAt : Nat → Bool → Bool → Operand → Option Cst → Option Cst → Option Check
  | 0, _, _, _, _, _ => none
  | depth + 1, sameNode, inP, exp, low, high =>
    let etype := exp.type
    if !inP then
      (buildRangeCheckAt depth sameNode true exp low high).map Check.invertTruthvalue
    else
      match low, high with
      | none, none => some (.truth true)
      | none, some high => some (.compare .le exp (foldConvert etype high))
      | some low, none => some (.compare .ge exp (foldConvert etype low))
      | some low, some high =>
        if operandEqualP sameNode low high then
          some (.compare .eq exp (foldConvert etype low))
        else if low.isZero then
          if !etype.unsigned then
            let etype := hooks.unsignedType etype
            buildRangeCheckAt depth false true (exp.foldConvert etype) none
              (some (foldConvert etype high))
          else buildRangeCheckAt depth false true exp none (some high)
        else if low.isOne && high.value == greatestPositive etype then
          -- (c>=1) && (c<=127) into (signed char)c > 0
          let stype := if etype.unsigned then hooks.signedType etype else etype
          some (.compare .gt (exp.foldConvert stype)
            (foldConvert stype (integerZeroNode integerTypeNode)))
        else
          let forced := forceUnsigned hooks integerTypeNode wrapv exp low high
          if forced.value.overflow then none
          else
            let difference := forced.inBase hooks
            buildRangeCheckAt depth false true
              (.minus difference.etype difference.exp difference.low)
              (some { type := difference.etype, value := 0 }) (some difference.value)

/-- `build_range_check`.  Its calls are at most four deep. -/
def buildRangeCheck : Bool → Bool → Operand → Option Cst → Option Cst → Option Check :=
  buildRangeCheckAt hooks integerTypeNode wrapv 4

end Check

def CstType.magnitude (type : CstType) (x : Int) : Int := wrap true type.precision x

theorem magnitude_reduce (type : CstType) (x : Int) :
    type.magnitude (type.reduce x) = type.magnitude x :=
  wrap_congr true (wrap_modEq _ _ x)

theorem reduce_of_contains {type : CstType} {x : Int} (contains : type.toIntType.Contains x) :
    type.reduce x = x :=
  type.toIntType.wrap_eq contains

theorem contains_reduce (type : CstType) (x : Int) : type.toIntType.Contains (type.reduce x) :=
  (type.toIntType.contains_iff _).mpr (wrap_inRange type.positive type.unsigned x)

theorem type_foldConvert (type : CstType) (c : Cst) : (foldConvert type c).type = type := by
  unfold foldConvert
  split
  · rename_i same
    exact same.symm
  · rfl

theorem value_foldConvert {type : CstType} {c : Cst}
    (contains : c.type = type → type.toIntType.Contains c.value) :
    (foldConvert type c).value = type.reduce c.value := by
  unfold foldConvert
  split
  · rename_i same
    exact (reduce_of_contains (contains same.symm)).symm
  · rfl

namespace Operand

variable {wrapv : Bool} {v x : Int} {arg : Operand}

theorem type_foldConvert (type : CstType) (arg : Operand) : (arg.foldConvert type).type = type := by
  unfold foldConvert
  split
  · rename_i same
    exact same.symm
  · rfl

theorem eval_foldConvert {type : CstType} (value : arg.eval wrapv v = some x)
    (contains : arg.type = type → type.toIntType.Contains x) :
    (arg.foldConvert type).eval wrapv v = some (type.reduce x) := by
  unfold foldConvert
  split
  · rename_i same
    rw [value, reduce_of_contains (contains same.symm)]
  · rw [eval, value, Option.map_some]

end Operand

theorem magnitude_eq_zero_iff {type : CstType} {x : Int} (contains : type.toIntType.Contains x) :
    type.magnitude x = 0 ↔ x = 0 := by
  have zero : type.magnitude 0 = 0 := Int.zero_emod _
  constructor
  · intro isZero
    have congruent := (wrap_eq_wrap_iff true).mp (isZero.trans zero.symm)
    have reduced := wrap_congr type.unsigned congruent
    rw [type.toIntType.wrap_eq contains] at reduced
    exact reduced.trans
      (reduce_of_contains ⟨type.toIntType.min_le_zero, type.toIntType.zero_le_max⟩)
  · rintro rfl
    exact zero

theorem magnitude_nonneg (type : CstType) (x : Int) : 0 ≤ type.magnitude x :=
  Int.emod_nonneg _ (by have := Nat.two_pow_pos type.precision; omega)

theorem magnitude_of_unsigned {type : CstType} {x : Int} (unsigned : type.unsigned = true)
    (contains : type.toIntType.Contains x) : type.magnitude x = x := by
  have reduced := reduce_of_contains contains
  rwa [CstType.reduce, unsigned] at reduced

section Stages

variable {hooks : TypeHooks} {integerTypeNode : CstType} {wrapv : Bool} {v : Int}

theorem zeroCheck_spec (hooks : TypeHooks) (integerTypeNode : CstType) {depth : Nat}
    {sameNode : Bool} {exp : Operand} {low high : Cst} (isZero : low.isZero = true)
    (typed : low.type = exp.type) (same : sameNode = true → low = high)
    (highContains : high.type.toIntType.Contains high.value)
    (expContains : ∀ x, exp.eval wrapv v = some x → exp.type.toIntType.Contains x) :
    ∃ check, buildRangeCheckAt hooks integerTypeNode wrapv (depth + 2) sameNode true exp (some low)
        (some high) = some check ∧
      check.eval wrapv v = (exp.eval wrapv v).map fun x =>
        decide (exp.type.magnitude x ≤ exp.type.magnitude high.value) := by
  have lowValue : low.value = 0 := by
    rw [Cst.isZero, Bool.and_eq_true, beq_iff_eq] at isZero
    exact isZero.2
  rw [buildRangeCheckAt]
  dsimp only
  rw [Bool.not_true, if_neg Bool.false_ne_true]
  by_cases equal : operandEqualP sameNode low high = true
  · have highValue : high.value = 0 := by
      rw [operandEqualP, Bool.or_eq_true] at equal
      obtain isSame | equal := equal
      · rw [← same isSame, lowValue]
      · simp only [Bool.and_eq_true, beq_iff_eq] at equal
        rw [← equal.2, lowValue]
    refine ⟨_, if_pos equal, ?_⟩
    rw [Check.eval, foldConvert_ofType typed]
    refine Option.map_congr fun x value => ?_
    have contains := expContains x value
    have nonneg := magnitude_nonneg exp.type x
    have zero : exp.type.magnitude 0 = 0 := Int.zero_emod _
    rw [lowValue, highValue, zero, CompareCode.holds, Bool.eq_iff_iff, beq_iff_eq,
      decide_eq_true_iff, ← magnitude_eq_zero_iff contains]
    omega
  · rw [if_neg equal, if_pos isZero]
    by_cases unsigned : exp.type.unsigned = true
    · rw [unsigned, Bool.not_true, if_neg Bool.false_ne_true]
      refine ⟨_, rfl, ?_⟩
      rw [Check.eval, value_foldConvert fun equal => equal ▸ highContains]
      refine Option.map_congr fun x value => ?_
      rw [magnitude_of_unsigned unsigned (expContains x value), CstType.reduce, unsigned]
      rfl
    · rw [Bool.not_eq_true] at unsigned
      have different : hooks.unsignedType exp.type ≠ exp.type := by
        intro isSame
        have isUnsigned := hooks.unsigned_unsignedType exp.type
        rw [isSame, unsigned] at isUnsigned
        cases isUnsigned
      have asUnsigned : ∀ x, (hooks.unsignedType exp.type).reduce x = exp.type.magnitude x := by
        intro x
        rw [CstType.reduce, hooks.unsigned_unsignedType, hooks.precision_unsignedType]
        rfl
      rw [unsigned, Bool.not_false, if_pos rfl]
      refine ⟨_, rfl, ?_⟩
      rw [Check.eval, Operand.type_foldConvert, foldConvert_ofType (type_foldConvert _ high),
        value_foldConvert fun equal => equal ▸ highContains, asUnsigned, Operand.foldConvert,
        if_neg different, Operand.eval, Option.map_map]
      refine Option.map_congr fun x _ => ?_
      rw [Function.comp_apply, asUnsigned]
      rfl

theorem magnitude_sub_le_iff {type : CstType} {low high : Int} (ordered : low ≤ high)
    (span : high - low < (2 ^ type.precision : Nat)) (above : v - low < (2 ^ type.precision : Nat))
    (below : high - v < (2 ^ type.precision : Nat)) :
    type.magnitude (v - low) ≤ type.magnitude (high - low) ↔ low ≤ v ∧ v ≤ high := by
  have distance : type.magnitude (high - low) = high - low :=
    Int.emod_eq_of_lt (by omega) span
  rw [distance]
  by_cases before : v < low
  · have wraps : type.magnitude (v - low) = v - low + (2 ^ type.precision : Nat) := by
      rw [CstType.magnitude, wrap_unsigned, ← Int.add_emod_right]
      exact Int.emod_eq_of_lt (by omega) (by omega)
    rw [wraps]
    omega
  · have same : type.magnitude (v - low) = v - low := Int.emod_eq_of_lt (by omega) above
    rw [same]
    omega

theorem sub_lt_modulus {type : CstType} {x y : Int} (containsX : type.toIntType.Contains x)
    (containsY : type.toIntType.Contains y) : x - y < (2 ^ type.precision : Nat) := by
  have modulus := modulus_eq type
  have upper := containsX.2
  have lower := containsY.1
  omega

/-- What a difference stands for: the value less the lower bound, and the distance of
the bounds, modulo the precision of its type. -/
structure Subtracts (wrapv : Bool) (v low high : Int) (difference : Difference) : Prop where
  eval : ∃ x, difference.exp.eval wrapv v = some x ∧
    x - difference.low.value ≡ v - low [ZMOD (2 ^ difference.etype.precision : Nat)] ∧
    (difference.etype.unsigned = false → x - difference.low.value = v - low)
  value : difference.value.value ≡ high - low [ZMOD (2 ^ difference.etype.precision : Nat)]
  contains : difference.value.type.toIntType.Contains difference.value.value
  span : high - low < (2 ^ difference.etype.precision : Nat)
  above : v - low < (2 ^ difference.etype.precision : Nat)
  below : high - v < (2 ^ difference.etype.precision : Nat)

theorem differenceCheck_spec (hooks : TypeHooks) (integerTypeNode : CstType) {depth : Nat}
    {low high : Int} {difference : Difference} (ordered : low ≤ high)
    (subtracts : Subtracts wrapv v low high difference) :
    ∃ check, buildRangeCheckAt hooks integerTypeNode wrapv (depth + 2) false true
        (.minus difference.etype difference.exp difference.low)
        (some { type := difference.etype, value := 0 }) (some difference.value) = some check ∧
      check.eval wrapv v =
        if difference.etype.unsigned || wrapv ||
            decide (difference.etype.toIntType.Contains (v - low)) then
          some (decide (low ≤ v ∧ v ≤ high))
        else none := by
  obtain ⟨x, value, congruent, exact_⟩ := subtracts.eval
  have evaluated : (Operand.minus difference.etype difference.exp difference.low).eval wrapv v =
      if difference.etype.unsigned || wrapv ||
          decide (difference.etype.toIntType.Contains (v - low)) then
        some (difference.etype.reduce (v - low))
      else none := by
    rw [Operand.eval, value, Option.bind_some]
    have sameValue : difference.etype.reduce (x - difference.low.value) =
        difference.etype.reduce (v - low) := wrap_congr _ congruent
    rw [sameValue]
    by_cases unsigned : difference.etype.unsigned = true
    · simp only [unsigned, Bool.true_or]
    · rw [exact_ (Bool.not_eq_true _ ▸ unsigned)]
  obtain ⟨check, built, isCheck⟩ := @zeroCheck_spec wrapv v hooks integerTypeNode depth false
    (.minus difference.etype difference.exp difference.low)
    { type := difference.etype, value := 0 } difference.value rfl rfl nofun subtracts.contains
    fun y isValue => by
      rw [evaluated] at isValue
      split at isValue
      · rw [Option.some.injEq] at isValue
        rw [← isValue]
        exact contains_reduce _ _
      · cases isValue
  refine ⟨check, built, ?_⟩
  have distance : difference.etype.magnitude difference.value.value =
      difference.etype.magnitude (high - low) := wrap_congr true subtracts.value
  rw [isCheck, evaluated]
  split
  · rw [Option.map_some]
    change some (decide (difference.etype.magnitude (difference.etype.reduce (v - low)) ≤
      difference.etype.magnitude difference.value.value)) = _
    rw [magnitude_reduce, distance, decide_eq_decide.mpr (magnitude_sub_le_iff ordered
      subtracts.span subtracts.above subtracts.below)]
  · rfl

/-- The value is one of the type, and one of the type of which that is a subrange. -/
def InBase (hooks : TypeHooks) (type : CstType) (x : Int) : Prop :=
  type.toIntType.Contains x ∧ ∀ base, hooks.treeType type = some base → base.HasValue x

theorem InBase.of_hasValue {type : CstType} {x : Int} (hasValue : type.HasValue x) :
    InBase hooks type x :=
  ⟨hasValue.contains, fun _ isBase => hooks.hasValue_treeType isBase hasValue⟩

theorem InBase.base {type : CstType} {x : Int} (inBase : InBase hooks type x) :
    InBase hooks (baseType hooks type) x := by
  unfold baseType
  cases isBase : hooks.treeType type with
  | none => exact inBase
  | some base => exact InBase.of_hasValue (inBase.2 base isBase)

/-- The constants of one type that is left as it is, or changed for the one of which it
is a subrange. -/
theorem subtracts_inBase {low high : Int} {difference : Difference}
    (value : difference.exp.eval wrapv v = some v) (isLow : difference.low.value = low)
    (distance : difference.value.value = high - low)
    (contains : difference.value.type.toIntType.Contains difference.value.value)
    (vInBase : InBase hooks difference.etype v) (lowInBase : InBase hooks difference.etype low)
    (highInBase : InBase hooks difference.etype high) :
    Subtracts wrapv v low high (difference.inBase hooks) ∧
      (difference.inBase hooks).etype = baseType hooks difference.etype := by
  have vContains := vInBase.base.1
  have lowContains := lowInBase.base.1
  have highContains := highInBase.base.1
  unfold baseType at vContains lowContains highContains ⊢
  unfold Difference.inBase
  cases isBase : hooks.treeType difference.etype with
  | none =>
    rw [isBase, Option.getD_none] at vContains lowContains highContains
    refine ⟨⟨⟨v, value, by rw [isLow], fun _ => by rw [isLow]⟩, by rw [distance], contains,
      sub_lt_modulus highContains lowContains, sub_lt_modulus vContains lowContains,
      sub_lt_modulus highContains vContains⟩, rfl⟩
  | some base =>
    rw [isBase, Option.getD_some] at vContains lowContains highContains
    have newLow : (foldConvert base difference.low).value = low := by
      rw [value_foldConvert fun _ => isLow ▸ lowContains, isLow, reduce_of_contains lowContains]
    have newValue := Operand.eval_foldConvert value fun _ => vContains
    rw [reduce_of_contains vContains] at newValue
    refine ⟨⟨⟨v, newValue, by rw [newLow], fun _ => by rw [newLow]⟩, ?_, ?_,
      sub_lt_modulus highContains lowContains, sub_lt_modulus vContains lowContains,
      sub_lt_modulus highContains vContains⟩, rfl⟩
    · dsimp only
      rw [value_foldConvert fun equal => equal ▸ contains, distance]
      exact wrap_modEq _ _ _
    · dsimp only
      rw [type_foldConvert, value_foldConvert fun equal => equal ▸ contains]
      exact contains_reduce _ _

theorem constMinus_value {type : CstType} {low high : Cst} (typed : high.type = type)
    (lowContains : type.toIntType.Contains low.value)
    (highContains : type.toIntType.Contains high.value) (ordered : low.value ≤ high.value)
    (fits : (constMinus high low).overflow = false) :
    (constMinus high low).value = high.value - low.value := by
  subst typed
  have isValue : (constMinus high low).value = high.type.reduce (high.value - low.value) := rfl
  cases unsigned : high.type.unsigned with
  | true =>
    have highBounds := (high.type.toIntType.contains_unsigned unsigned _).mp highContains
    have lowBounds := (high.type.toIntType.contains_unsigned unsigned _).mp lowContains
    rw [isValue]
    exact reduce_of_contains ((high.type.toIntType.contains_unsigned unsigned _).mpr (by omega))
  | false =>
    by_contra differs
    have touched : (constMinus high low).overflow = true := by
      have notSame : (wrap high.type.unsigned high.type.precision (high.value - low.value) !=
          high.value - low.value) = true := bne_iff_ne.mpr differs
      rw [constMinus, forceFit]
      dsimp only
      rw [notSame, Bool.or_true, Bool.true_and, unsigned, Bool.not_false, Bool.true_and,
        Bool.or_true]
    rw [touched] at fits
    cases fits

theorem contains_sub {type : CstType} {x y : Int} (containsX : type.toIntType.Contains x)
    (containsY : type.toIntType.Contains y) (xNonneg : 0 ≤ x) (yNonneg : 0 ≤ y)
    (signed : type.unsigned = false) : type.toIntType.Contains (x - y) := by
  have greatest := type.toIntType.max_eq signed
  have upperX := containsX.2
  have upperY := containsY.2
  constructor
  · omega
  · omega

def differenceType (hooks : TypeHooks) (type : CstType) : CstType :=
  baseType hooks (if type.code.checked then baseType hooks type else type)

def Unforced (hooks : TypeHooks) (integerTypeNode type : CstType) : Prop :=
  type.unsigned = false ∧
    ¬(type.code.checked = true ∧ wrapsAround hooks integerTypeNode (baseType hooks type) = true)

theorem forced_spec {integerTypeNode : CstType} {exp : Operand} {low high : Cst}
    (value : exp.eval wrapv v = some v) (lowType : low.type = exp.type)
    (highType : high.type = exp.type) (vInBase : InBase hooks exp.type v)
    (lowInBase : InBase hooks exp.type low.value) (highInBase : InBase hooks exp.type high.value)
    (signed : exp.type.unsigned = false) (ordered : low.value ≤ high.value)
    (isForced : forceUnsigned hooks integerTypeNode wrapv exp low high =
      { etype := hooks.unsignedType (baseType hooks exp.type)
        exp := exp.foldConvert (hooks.unsignedType (baseType hooks exp.type))
        low := foldConvert (hooks.unsignedType (baseType hooks exp.type)) low
        value := constMinus (foldConvert (hooks.unsignedType (baseType hooks exp.type)) high)
          (foldConvert (hooks.unsignedType (baseType hooks exp.type)) low) })
    (fits : (forceUnsigned hooks integerTypeNode wrapv exp low high).value.overflow = false) :
    let difference := (forceUnsigned hooks integerTypeNode wrapv exp low high).inBase hooks
    Subtracts wrapv v low.value high.value difference ∧
      (difference.etype.unsigned = false →
        difference.etype.toIntType.Contains (v - low.value)) := by
  have utypeUnsigned := hooks.unsigned_unsignedType (baseType hooks exp.type)
  have utypePrecision := hooks.precision_unsignedType (baseType hooks exp.type)
  have utypeCases := hooks.treeType_unsignedType (baseType hooks exp.type)
  rw [isForced] at fits ⊢
  have vContains := vInBase.base.1
  have lowContains := lowInBase.base.1
  have highContains := highInBase.base.1
  generalize hooks.unsignedType (baseType hooks exp.type) = utype at *
  have different : exp.type ≠ utype := by
    rintro same
    rw [same, utypeUnsigned] at signed
    cases signed
  have newValue := Operand.eval_foldConvert value fun same => absurd same different
  have newLow := value_foldConvert (c := low) fun same => absurd (lowType.symm.trans same) different
  have newHigh := value_foldConvert (c := high)
    fun same => absurd (highType.symm.trans same) different
  have highIsU := type_foldConvert utype high
  obtain isBase | noBase := utypeCases
  · rw [← isBase] at vContains lowContains highContains
    rw [reduce_of_contains vContains] at newValue
    rw [reduce_of_contains lowContains] at newLow
    rw [reduce_of_contains highContains] at newHigh
    have distance := constMinus_value highIsU (newLow.symm ▸ lowContains)
      (newHigh.symm ▸ highContains) (by rwa [newLow, newHigh]) fits
    rw [newLow, newHigh] at distance
    obtain ⟨subtracts, isType⟩ := @subtracts_inBase hooks wrapv v low.value high.value
      { etype := utype, exp := exp.foldConvert utype, low := foldConvert utype low
        value := constMinus (foldConvert utype high) (foldConvert utype low) }
      newValue newLow distance (contains_reduce _ _) (isBase ▸ vInBase.base)
      (isBase ▸ lowInBase.base) (isBase ▸ highInBase.base)
    refine ⟨subtracts, fun isSigned => ?_⟩
    rw [isType] at isSigned ⊢
    have nonneg := fun {x : Int} (contains : utype.toIntType.Contains x) =>
      ((utype.toIntType.contains_unsigned utypeUnsigned x).mp contains).1
    exact contains_sub (isBase ▸ vInBase.base).base.1 (isBase ▸ lowInBase.base).base.1
      (nonneg vContains) (nonneg lowContains) isSigned
  · rw [Difference.inBase, noBase]
    have modulus : ∀ {x y : Int}, (baseType hooks exp.type).toIntType.Contains x →
        (baseType hooks exp.type).toIntType.Contains y → x - y < (2 ^ utype.precision : Nat) := by
      intro x y containsX containsY
      rw [utypePrecision]
      exact sub_lt_modulus containsX containsY
    have isValue : (constMinus (foldConvert utype high) (foldConvert utype low)).value =
        (foldConvert utype high).type.reduce
          ((foldConvert utype high).value - (foldConvert utype low).value) := rfl
    have congruent := fun x : Int => wrap_modEq utype.unsigned utype.precision x
    refine ⟨⟨⟨_, newValue, ?_, fun isSigned => ?_⟩, ?_, contains_reduce _ _,
      modulus highContains lowContains, modulus vContains lowContains,
      modulus highContains vContains⟩, fun isSigned => ?_⟩
    · rw [newLow]
      exact (congruent v).sub (congruent low.value)
    · exact absurd (utypeUnsigned.symm.trans isSigned) Bool.noConfusion
    · rw [isValue, highIsU, newLow, newHigh]
      exact (congruent _).trans ((congruent high.value).sub (congruent low.value))
    · exact absurd (utypeUnsigned.symm.trans isSigned) Bool.noConfusion

theorem difference_spec (hooks : TypeHooks) (integerTypeNode : CstType) {exp : Operand}
    {low high : Cst} (value : exp.eval wrapv v = some v) (lowType : low.type = exp.type)
    (highType : high.type = exp.type) (vInBase : InBase hooks exp.type v)
    (lowInBase : InBase hooks exp.type low.value) (highInBase : InBase hooks exp.type high.value)
    (ordered : low.value ≤ high.value)
    (fits : (forceUnsigned hooks integerTypeNode wrapv exp low high).value.overflow = false) :
    let difference := (forceUnsigned hooks integerTypeNode wrapv exp low high).inBase hooks
    Subtracts wrapv v low.value high.value difference ∧
      (wrapv = false → Unforced hooks integerTypeNode exp.type →
        difference.etype = differenceType hooks exp.type) ∧
      (wrapv = false → ¬Unforced hooks integerTypeNode exp.type →
        difference.etype.unsigned = false →
          difference.etype.toIntType.Contains (v - low.value)) := by
  intro difference
  have plainContains : (constMinus high low).type.toIntType.Contains (constMinus high low).value :=
    contains_reduce high.type _
  -- The constants are left as they are, in the type or in the one that it is a subrange of.
  have plain : ∀ {type : CstType}, InBase hooks type v → InBase hooks type low.value →
      InBase hooks type high.value → (constMinus high low).overflow = false →
      forceUnsigned hooks integerTypeNode wrapv exp low high =
        { etype := type, exp := exp, low := low, value := constMinus high low } →
      Subtracts wrapv v low.value high.value difference ∧
        difference.etype = baseType hooks type := by
    intro type vIn lowIn highIn noOverflow isPlain
    have distance := constMinus_value highType lowInBase.1 highInBase.1 ordered noOverflow
    have isDifference : difference = Difference.inBase hooks
        { etype := type, exp := exp, low := low, value := constMinus high low } :=
      congrArg (Difference.inBase hooks) isPlain
    rw [isDifference]
    exact @subtracts_inBase hooks wrapv v low.value high.value
      { etype := type, exp := exp, low := low, value := constMinus high low }
      value rfl distance plainContains vIn lowIn highIn
  by_cases forces : ((!wrapv || (constMinus high low).overflow) && !exp.type.unsigned) = true
  · have signed : exp.type.unsigned = false := by
      rw [Bool.and_eq_true, Bool.not_eq_true'] at forces
      exact forces.2
    by_cases checked : exp.type.code.checked = true
    · by_cases wraps : wrapsAround hooks integerTypeNode (baseType hooks exp.type) = true
      · have isForced : forceUnsigned hooks integerTypeNode wrapv exp low high =
            { etype := hooks.unsignedType (baseType hooks exp.type)
              exp := exp.foldConvert (hooks.unsignedType (baseType hooks exp.type))
              low := foldConvert (hooks.unsignedType (baseType hooks exp.type)) low
              value := constMinus
                (foldConvert (hooks.unsignedType (baseType hooks exp.type)) high)
                (foldConvert (hooks.unsignedType (baseType hooks exp.type)) low) } := by
          unfold forceUnsigned
          dsimp only
          rw [if_pos forces, if_pos checked, if_pos wraps]
        obtain ⟨subtracts, nonneg⟩ := forced_spec value lowType highType vInBase lowInBase
          highInBase signed ordered isForced fits
        exact ⟨subtracts, fun _ unforced => absurd ⟨checked, wraps⟩ unforced.2,
          fun _ _ isSigned => nonneg isSigned⟩
      · have isPlain : forceUnsigned hooks integerTypeNode wrapv exp low high =
            { etype := baseType hooks exp.type, exp := exp, low := low
              value := constMinus high low } := by
          unfold forceUnsigned
          dsimp only
          rw [if_pos forces, if_pos checked, if_neg wraps]
        have noOverflow : (constMinus high low).overflow = false := by rwa [isPlain] at fits
        obtain ⟨subtracts, isType⟩ :=
          plain vInBase.base lowInBase.base highInBase.base noOverflow isPlain
        refine ⟨subtracts, fun _ _ => ?_, fun _ forced => ?_⟩
        · rw [isType, differenceType, if_pos checked]
        · exact absurd ⟨signed, fun both => wraps both.2⟩ forced
    · have isPlain : forceUnsigned hooks integerTypeNode wrapv exp low high =
          { etype := exp.type, exp := exp, low := low, value := constMinus high low } := by
        unfold forceUnsigned
        dsimp only
        rw [if_pos forces, if_neg checked]
      have noOverflow : (constMinus high low).overflow = false := by rwa [isPlain] at fits
      obtain ⟨subtracts, isType⟩ := plain vInBase lowInBase highInBase noOverflow isPlain
      refine ⟨subtracts, fun _ _ => ?_, fun _ forced => ?_⟩
      · rw [isType, differenceType, if_neg checked]
      · exact absurd ⟨signed, fun both => checked both.1⟩ forced
  · have isPlain : forceUnsigned hooks integerTypeNode wrapv exp low high =
        { etype := exp.type, exp := exp, low := low, value := constMinus high low } := by
      unfold forceUnsigned
      dsimp only
      rw [if_neg forces]
    have noOverflow : (constMinus high low).overflow = false := by rwa [isPlain] at fits
    obtain ⟨subtracts, isType⟩ := plain vInBase lowInBase highInBase noOverflow isPlain
    have unsigned_ : wrapv = false → exp.type.unsigned = true := by
      rintro rfl
      simpa using forces
    refine ⟨subtracts, fun noWrap unforced => ?_, fun noWrap _ isSigned => ?_⟩
    · have unsigned := unsigned_ noWrap
      rw [unforced.1] at unsigned
      cases unsigned
    · have bounds := fun {x : Int} (contains : exp.type.toIntType.Contains x) =>
        ((exp.type.toIntType.contains_unsigned (unsigned_ noWrap) x).mp contains).1
      rw [isType] at isSigned ⊢
      exact contains_sub vInBase.base.1 lowInBase.base.1 (bounds vInBase.1) (bounds lowInBase.1)
        isSigned

/-- The check has a value, which says whether the proposition holds. -/
def Check.Decides (wrapv : Bool) (v : Int) (check : Check) (p : Prop) : Prop :=
  ∃ b, check.eval wrapv v = some b ∧ (b = true ↔ p)

/-- The bounds are compared through a difference, the difference is left in a signed
type, and it overflows at the value. -/
structure Exposed (hooks : TypeHooks) (integerTypeNode etype : CstType) (sameNode : Bool)
    (low high : Cst) (v : Int) : Prop where
  different : operandEqualP sameNode low high = false
  nonzero : low.isZero = false
  notPositive : (low.isOne && high.value == greatestPositive etype) = false
  unforced : Unforced hooks integerTypeNode etype
  signed : (differenceType hooks etype).unsigned = false
  overflows : ¬ (differenceType hooks etype).toIntType.Contains (v - low.value)

theorem Check.decides_of_eval {check : Check} {p q : Prop} [Decidable p]
    (value : check.eval wrapv v = some (decide p)) (same : p ↔ q) : check.Decides wrapv v q :=
  ⟨_, value, decide_eq_true_iff.trans same⟩

theorem CompareCode.holds_inverse (code : CompareCode) (x y : Int) :
    code.inverse.holds x y = !code.holds x y := by
  cases code with
  | eq => rfl
  | ne => exact (Bool.not_not _).symm
  | gt | ge | lt | le =>
    simp only [CompareCode.inverse, CompareCode.holds, ← decide_not, not_lt, not_le]

theorem Check.eval_invertTruthvalue (check : Check) :
    check.invertTruthvalue.eval wrapv v = (check.eval wrapv v).map not := by
  cases check with
  | truth value => rfl
  | compare code arg0 arg1 =>
    rw [invertTruthvalue, eval, eval, Option.map_map]
    exact Option.map_congr fun x _ => code.holds_inverse x arg1.value

theorem Check.decides_invertTruthvalue (check : Check) (p : Prop) :
    check.invertTruthvalue.Decides wrapv v (¬ p) ↔ check.Decides wrapv v p := by
  unfold Check.Decides
  rw [check.eval_invertTruthvalue]
  constructor
  · rintro ⟨b, value, holds⟩
    obtain ⟨a, isA, rfl⟩ := Option.map_eq_some_iff.mp value
    refine ⟨a, isA, ?_⟩
    rw [Bool.not_eq_true'] at holds
    rw [← not_iff_not, ← holds, Bool.not_eq_true]
  · rintro ⟨a, value, holds⟩
    refine ⟨!a, by rw [value, Option.map_some], ?_⟩
    rw [← holds, Bool.not_eq_true', Bool.not_eq_true]

/-- A value that is at most the greatest positive one is positive as a signed number
exactly if it is in the upper half of an unsigned type or positive. -/
theorem reduce_pos_iff {type stype : CstType} (signed : stype.unsigned = false)
    (precision : stype.precision = type.precision) {x : Int}
    (contains : type.toIntType.Contains x) :
    0 < stype.reduce x ↔ 1 ≤ x ∧ x ≤ greatestPositive type := by
  have doubled := Nat.two_pow_pred_mul_two type.positive
  have greatest : stype.toIntType.maxValue = 2 ^ (type.precision - 1) - 1 := by
    rw [Vrp.IntType.maxValue, signed, precision]
    rfl
  have least : stype.toIntType.minValue = -2 ^ (type.precision - 1) := by
    rw [Vrp.IntType.minValue, signed, precision]
    rfl
  have half : ((2 ^ (type.precision - 1) : Nat) : Int) = 2 ^ (type.precision - 1) := by
    push_cast
    rfl
  rw [greatestPositive]
  by_cases upper : x < 2 ^ (type.precision - 1)
  · have lower : stype.toIntType.minValue ≤ x := by
      cases unsigned : type.unsigned with
      | true =>
        have := ((type.toIntType.contains_unsigned unsigned x).mp contains).1
        omega
      | false =>
        have := contains.1
        rw [Vrp.IntType.minValue, unsigned] at this
        rw [least]
        exact this
    rw [reduce_of_contains ⟨lower, by omega⟩]
    omega
  · have unsigned : type.unsigned = true := by
      by_contra isSigned
      have := contains.2
      rw [Vrp.IntType.maxValue, if_neg isSigned] at this
      omega
    have bounds := (type.toIntType.contains_unsigned unsigned x).mp contains
    have wraps : stype.reduce x = x - (2 ^ type.precision : Nat) := by
      have inside : stype.toIntType.Contains (x - (2 ^ type.precision : Nat)) :=
        ⟨by omega, by omega⟩
      rw [← reduce_of_contains inside]
      refine wrap_congr _ ?_
      rw [precision]
      exact (Int.modEq_sub_modulus_iff.mpr rfl)
    rw [wraps]
    omega

theorem positiveCheck_decides (hooks : TypeHooks) (integerTypeNode : CstType) {etype : CstType}
    {low high : Cst} (positive : (low.isOne && high.value == greatestPositive etype) = true)
    (contains : etype.toIntType.Contains v) :
    let stype := if etype.unsigned then hooks.signedType etype else etype
    (Check.compare .gt (Operand.foldConvert stype (.exp etype))
      (foldConvert stype (integerZeroNode integerTypeNode))).Decides wrapv v
        (low.value ≤ v ∧ v ≤ high.value) := by
  obtain ⟨isOne, greatest⟩ := Bool.and_eq_true_iff.mp positive
  have one : low.value = 1 := by
    rw [Cst.isOne, Bool.and_eq_true, beq_iff_eq] at isOne
    exact isOne.2
  obtain ⟨stype, isStype, signed, precision⟩ : ∃ stype,
      (if etype.unsigned then hooks.signedType etype else etype) = stype ∧
        stype.unsigned = false ∧ stype.precision = etype.precision := by
    cases unsigned : etype.unsigned with
    | true =>
      exact ⟨_, if_pos rfl, hooks.unsigned_signedType etype, hooks.precision_signedType etype⟩
    | false => exact ⟨_, if_neg Bool.false_ne_true, unsigned, rfl⟩
  rw [isStype]
  have zeroContains : stype.toIntType.Contains 0 :=
    ⟨stype.toIntType.min_le_zero, stype.toIntType.zero_le_max⟩
  have value := @Operand.eval_foldConvert wrapv v v (.exp etype) stype rfl
    fun isSame => isSame ▸ contains
  have zero : (foldConvert stype (integerZeroNode integerTypeNode)).value = 0 := by
    rw [value_foldConvert fun _ => zeroContains]
    exact reduce_of_contains zeroContains
  refine ⟨_, by rw [Check.eval, value, Option.map_some], ?_⟩
  rw [CompareCode.holds, zero, decide_eq_true_iff, reduce_pos_iff signed precision contains, one,
    beq_iff_eq.mp greatest]

theorem differenceBounds_iff (hooks : TypeHooks) (integerTypeNode : CstType) {depth : Nat}
    {etype : CstType} {low high : Cst} {check : Check} (lowType : low.type = etype)
    (highType : high.type = etype) (vInBase : InBase hooks etype v)
    (lowInBase : InBase hooks etype low.value) (highInBase : InBase hooks etype high.value)
    (ordered : low.value ≤ high.value)
    (fits : (forceUnsigned hooks integerTypeNode wrapv (.exp etype) low high).value.overflow =
      false)
    (built :
      let difference :=
        (forceUnsigned hooks integerTypeNode wrapv (.exp etype) low high).inBase hooks
      buildRangeCheckAt hooks integerTypeNode wrapv (depth + 2) false true
        (.minus difference.etype difference.exp difference.low)
        (some { type := difference.etype, value := 0 }) (some difference.value) = some check) :
    check.Decides wrapv v (low.value ≤ v ∧ v ≤ high.value) ↔
      ¬ (wrapv = false ∧ Unforced hooks integerTypeNode etype ∧
        (differenceType hooks etype).unsigned = false ∧
        ¬ (differenceType hooks etype).toIntType.Contains (v - low.value)) := by
  obtain ⟨subtracts, unforcedType, forcedFits⟩ := @difference_spec wrapv v hooks
    integerTypeNode (.exp etype) low high rfl lowType highType vInBase lowInBase highInBase
    ordered fits
  obtain ⟨_, built', value⟩ := @differenceCheck_spec wrapv v hooks integerTypeNode depth
    _ _ _ ordered subtracts
  dsimp only at built
  rw [built', Option.some.injEq] at built
  subst built
  generalize (forceUnsigned hooks integerTypeNode wrapv (.exp etype) low high).inBase
    hooks = difference at *
  by_cases hasNoValue : wrapv = false ∧ difference.etype.unsigned = false ∧
      ¬ difference.etype.toIntType.Contains (v - low.value)
  · obtain ⟨noWrap, signed, outside⟩ := hasNoValue
    have unforced : Unforced hooks integerTypeNode etype := by
      by_contra forced
      exact outside (forcedFits noWrap forced signed)
    have isType := unforcedType noWrap unforced
    refine iff_of_false ?_ fun notExposed =>
      notExposed ⟨noWrap, unforced, isType ▸ signed, isType ▸ outside⟩
    rintro ⟨b, isValue, _⟩
    rw [value, noWrap, signed, Bool.or_self, Bool.false_or, if_neg] at isValue
    · cases isValue
    · exact fun inside => outside (of_decide_eq_true inside)
  · have hasValue : (difference.etype.unsigned || wrapv ||
        decide (difference.etype.toIntType.Contains (v - low.value))) = true := by
      rw [not_and_or, not_and_or, not_not, Bool.not_eq_false, Bool.not_eq_false] at hasNoValue
      rw [Bool.or_eq_true, Bool.or_eq_true, decide_eq_true_iff]
      tauto
    rw [if_pos hasValue] at value
    refine iff_of_true (Check.decides_of_eval value Iff.rfl) ?_
    rintro ⟨noWrap, unforced, signed, outside⟩
    have isType := unforcedType noWrap unforced
    exact hasNoValue ⟨noWrap, isType ▸ signed, isType ▸ outside⟩

theorem bothBounds_iff (hooks : TypeHooks) (integerTypeNode : CstType) {depth : Nat}
    {sameNode : Bool} {etype : CstType} {low high : Cst} {check : Check}
    (lowType : low.type = etype) (highType : high.type = etype)
    (lowInBase : InBase hooks etype low.value) (highInBase : InBase hooks etype high.value)
    (ordered : low.value ≤ high.value) (same : sameNode = true → low = high)
    (hasValue : etype.HasValue v)
    (built : buildRangeCheckAt hooks integerTypeNode wrapv (depth + 3) sameNode true (.exp etype)
      (some low) (some high) = some check) :
    check.Decides wrapv v (low.value ≤ v ∧ v ≤ high.value) ↔
      ¬ (wrapv = false ∧ Exposed hooks integerTypeNode etype sameNode low high v) := by
  have vInBase : InBase hooks etype v := InBase.of_hasValue hasValue
  by_cases equal : operandEqualP sameNode low high = true
  · have sameValue : low.value = high.value := by
      rw [operandEqualP, Bool.or_eq_true] at equal
      obtain isSame | equal := equal
      · rw [same isSame]
      · simp only [Bool.and_eq_true, beq_iff_eq] at equal
        exact equal.2
    rw [buildRangeCheckAt] at built
    dsimp only at built
    rw [Bool.not_true, if_neg Bool.false_ne_true, if_pos equal, Option.some.injEq] at built
    subst built
    refine iff_of_true ⟨_, rfl, ?_⟩ fun both => absurd equal (by rw [both.2.different]; decide)
    rw [Operand.type, foldConvert_ofType lowType]
    change (v == low.value) = true ↔ _
    rw [beq_iff_eq]
    omega
  · by_cases isZero : low.isZero = true
    · obtain ⟨_, built', value⟩ := @zeroCheck_spec wrapv v hooks integerTypeNode (depth + 1)
        sameNode (.exp etype) low high isZero lowType same (highType.symm ▸ highInBase.1)
        fun x isValue => by
          rw [Operand.eval, Option.some.injEq] at isValue
          exact isValue ▸ vInBase.1
      rw [built', Option.some.injEq] at built
      subst built
      have zero : low.value = 0 := by
        rw [Cst.isZero, Bool.and_eq_true, beq_iff_eq] at isZero
        exact isZero.2
      have distance := @magnitude_sub_le_iff v etype _ _ ordered
        (sub_lt_modulus highInBase.1 lowInBase.1) (sub_lt_modulus vInBase.1 lowInBase.1)
        (sub_lt_modulus highInBase.1 vInBase.1)
      rw [zero, Int.sub_zero, Int.sub_zero, ← zero] at distance
      exact iff_of_true (Check.decides_of_eval value distance)
        fun both => absurd isZero (by rw [both.2.nonzero]; decide)
    · rw [buildRangeCheckAt] at built
      dsimp only at built
      rw [Bool.not_true, if_neg Bool.false_ne_true, if_neg equal, if_neg isZero] at built
      by_cases positive : (low.isOne && high.value == greatestPositive etype) = true
      · rw [Operand.type, if_pos positive, Option.some.injEq] at built
        subst built
        exact iff_of_true (positiveCheck_decides hooks integerTypeNode positive vInBase.1)
          fun both => absurd positive (by rw [both.2.notPositive]; decide)
      · rw [Operand.type, if_neg positive] at built
        by_cases overflows :
            (forceUnsigned hooks integerTypeNode wrapv (.exp etype) low high).value.overflow = true
        · rw [if_pos overflows] at built
          cases built
        · rw [if_neg overflows] at built
          rw [Bool.not_eq_true] at overflows equal isZero positive
          rw [differenceBounds_iff hooks integerTypeNode lowType highType vInBase lowInBase
            highInBase ordered overflows built]
          refine not_congr ⟨?_, ?_⟩
          · rintro ⟨noWrap, unforced, signed, outside⟩
            exact ⟨noWrap, equal, isZero, positive, unforced, signed, outside⟩
          · rintro ⟨noWrap, exposed⟩
            exact ⟨noWrap, exposed.unforced, exposed.signed, exposed.overflows⟩

/-- A range whose bounds are constants of a type, which need only be in the type of
which it is a subrange. -/
structure Range.Testable (hooks : TypeHooks) (etype : CstType) (sameNode : Bool) (range : Range) :
    Prop where
  low : ∀ l ∈ range.low, l.type = etype ∧ InBase hooks etype l.value
  high : ∀ h ∈ range.high, h.type = etype ∧ InBase hooks etype h.value
  ordered : ¬ Apart (bound range.high) (bound range.low)
  same : sameNode = true → range.low = range.high

theorem buildRangeCheckAt_iff (hooks : TypeHooks) (integerTypeNode : CstType) {depth : Nat}
    {sameNode inP : Bool} {etype : CstType} {low high : Option Cst} {check : Check}
    (testable : Range.Testable hooks etype sameNode { inP := inP, low := low, high := high })
    (hasValue : etype.HasValue v)
    (built : buildRangeCheckAt hooks integerTypeNode wrapv (depth + 3) sameNode true (.exp etype)
      low high = some check) :
    check.Decides wrapv v (Within (bound low) (bound high) v) ↔
      ¬ (wrapv = false ∧
        ∃ l ∈ low, ∃ h ∈ high, Exposed hooks integerTypeNode etype sameNode l h v) := by
  cases low with
  | none =>
    refine iff_of_true ?_ fun both => ?_
    · cases high with
      | none =>
        rw [buildRangeCheckAt, Bool.not_true, if_neg Bool.false_ne_true] at built
        cases built
        exact ⟨true, rfl, iff_of_true rfl ⟨above_none v, below_none v⟩⟩
      | some high =>
        rw [buildRangeCheckAt, Bool.not_true, if_neg Bool.false_ne_true] at built
        cases built
        refine Check.decides_of_eval rfl ?_
        rw [Operand.type, foldConvert_ofType (testable.high high rfl).1]
        exact ⟨fun below => ⟨above_none v, (below_some _ v).mpr below⟩,
          fun within_ => (below_some _ v).mp within_.2⟩
    · obtain ⟨_, l, isLow, _⟩ := both
      cases isLow
  | some low =>
    cases high with
    | none =>
      rw [buildRangeCheckAt, Bool.not_true, if_neg Bool.false_ne_true] at built
      cases built
      refine iff_of_true (Check.decides_of_eval rfl ?_) fun both => ?_
      · rw [Operand.type, foldConvert_ofType (testable.low low rfl).1]
        exact ⟨fun above => ⟨(above_some _ v).mpr above, below_none v⟩,
          fun within_ => (above_some _ v).mp within_.1⟩
      · obtain ⟨_, _, _, h, isHigh, _⟩ := both
        cases isHigh
    | some high =>
      obtain ⟨lowType, lowInBase⟩ := testable.low low rfl
      obtain ⟨highType, highInBase⟩ := testable.high high rfl
      have ordered : low.value ≤ high.value :=
        not_lt.mp fun less => testable.ordered ⟨_, rfl, _, rfl, less⟩
      have isWithin : Within (bound (some low)) (bound (some high)) v ↔
          low.value ≤ v ∧ v ≤ high.value :=
        and_congr (above_some _ v) (below_some _ v)
      rw [isWithin, bothBounds_iff hooks integerTypeNode lowType highType lowInBase highInBase
        ordered (fun isSame => Option.some.inj (testable.same isSame)) hasValue built]
      refine not_congr (and_congr_right fun _ => ?_)
      constructor
      · exact fun exposed => ⟨low, rfl, high, rfl, exposed⟩
      · rintro ⟨_, ⟨⟩, _, ⟨⟩, exposed⟩
        exact exposed

/-- The check of a range says at a value whether the range holds unless the value less
the lower bound is computed in a signed type that does not have it. -/
theorem buildRangeCheck_iff (hooks : TypeHooks) (integerTypeNode : CstType) {wrapv : Bool}
    {sameNode : Bool} {etype : CstType} {range : Range} {check : Check}
    (testable : range.Testable hooks etype sameNode)
    (built : buildRangeCheck hooks integerTypeNode wrapv sameNode range.inP (.exp etype) range.low
      range.high = some check) {v : Int} (hasValue : etype.HasValue v) :
    check.Decides wrapv v (range.Holds v) ↔
      ¬ (wrapv = false ∧ ∃ low ∈ range.low, ∃ high ∈ range.high,
        Exposed hooks integerTypeNode etype sameNode low high v) := by
  unfold buildRangeCheck at built
  cases inP : range.inP with
  | true =>
    rw [inP] at built
    rw [range.holds_in inP]
    exact buildRangeCheckAt_iff hooks integerTypeNode testable hasValue built
  | false =>
    rw [inP] at built
    change (buildRangeCheckAt hooks integerTypeNode wrapv (0 + 3) sameNode true (.exp etype)
      range.low range.high).map Check.invertTruthvalue = some check at built
    obtain ⟨inner, isInner, rfl⟩ := Option.map_eq_some_iff.mp built
    rw [range.holds_out inP, Check.decides_invertTruthvalue]
    exact buildRangeCheckAt_iff hooks integerTypeNode testable hasValue isInner

end Stages

section Examples

def unsignedVersion (type : CstType) : CstType where
  unsigned := true
  precision := type.precision
  positive := type.positive
  code := .integer
  typeMin := 0
  typeMax := 2 ^ type.precision - 1
  modeBits := type.modeBits
  min_le := le_refl _
  le_max := le_refl _
  nonempty := Int.le_sub_one_of_lt (by positivity)
  fits := type.fits

def signedVersion (type : CstType) : CstType where
  unsigned := false
  precision := type.precision
  positive := type.positive
  code := .integer
  typeMin := -2 ^ (type.precision - 1)
  typeMax := 2 ^ (type.precision - 1) - 1
  modeBits := type.modeBits
  min_le := le_refl _
  le_max := le_refl _
  nonempty := (neg_nonpos.mpr (by positivity)).trans (Int.le_sub_one_of_lt (by positivity))
  fits := type.fits

def hooksOf (treeType : CstType → Option CstType)
    (within_ : ∀ {type base : CstType} {v : Int}, treeType type = some base → type.HasValue v →
      base.HasValue v)
    (signed : ∀ type, type.unsigned = true → treeType type = none) : TypeHooks where
  treeType := treeType
  unsignedType := unsignedVersion
  signedType := signedVersion
  hasValue_treeType := within_
  unsigned_unsignedType := fun _ => rfl
  precision_unsignedType := fun _ => rfl
  unsigned_signedType := fun _ => rfl
  precision_signedType := fun _ => rfl
  treeType_unsignedType := fun _ => .inr (signed _ rfl)

def plainHooks : TypeHooks :=
  hooksOf (fun _ => none) (fun isBase => by cases isBase) fun _ _ => rfl

/-- `+ [50, 60]` of the type `int` is tested by an unsigned comparison. -/
theorem buildRangeCheck_iff_int :
    ∃ check, buildRangeCheck plainHooks intType false false true (.exp intType) (intCst 50)
        (intCst 60) = some check ∧
      check.Decides false (-2147483648)
        (Range.Holds { inP := true, low := intCst 50, high := intCst 60 } (-2147483648)) := by
  have testable : Range.Testable plainHooks intType false
      { inP := true, low := intCst 50, high := intCst 60 } := by
    refine ⟨?_, ?_, ?_, fun isSame => by cases isSame⟩
    · rintro _ ⟨⟩
      exact ⟨rfl, by decide, fun _ isBase => by cases isBase⟩
    · rintro _ ⟨⟩
      exact ⟨rfl, by decide, fun _ isBase => by cases isBase⟩
    · rintro ⟨_, ⟨⟩, _, ⟨⟩, less⟩
      exact absurd less (by decide)
  refine ⟨.compare .le (.minus (unsignedVersion intType) (.convert (unsignedVersion intType)
    (.exp intType)) { type := unsignedVersion intType, value := 50 })
    { type := unsignedVersion intType, value := 10 }, ?_, ?_⟩
  · decide
  · refine (buildRangeCheck_iff plainHooks intType testable (by decide)
      ⟨by decide, by decide⟩).mpr ?_
    rintro ⟨_, _, ⟨⟩, _, ⟨⟩, exposed⟩
    exact exposed.unforced.2 ⟨rfl, by decide⟩

theorem contains_thousand : (1000 : Int) ≤ intType.toIntType.maxValue := by decide

theorem min_le_thousand : intType.typeMin ≤ 1000 := by decide

theorem contains_hundred : (100 : Int) ≤ intType.toIntType.maxValue := by decide

theorem min_le_hundred : intType.typeMin ≤ 100 := by decide

/-- A subrange of `int`, and a subrange of that. -/
def uptoThousand : CstType :=
  { intType with typeMax := 1000, le_max := contains_thousand, nonempty := min_le_thousand }

def uptoHundred : CstType :=
  { intType with typeMax := 100, le_max := contains_hundred, nonempty := min_le_hundred }

def subrangeOf (type : CstType) : Option CstType :=
  if type = uptoHundred then some uptoThousand
  else if type = uptoThousand then some intType
  else none

theorem hasValue_subrangeOf {type base : CstType} {v : Int} (isBase : subrangeOf type = some base)
    (hasValue : type.HasValue v) : base.HasValue v := by
  unfold subrangeOf at isBase
  split at isBase
  · rename_i isHundred
    cases isBase
    subst isHundred
    exact ⟨hasValue.1, hasValue.2.trans (by decide)⟩
  · split at isBase
    · rename_i isThousand
      cases isBase
      subst isThousand
      exact ⟨hasValue.1, hasValue.2.trans (by decide)⟩
    · cases isBase

theorem subrangeOf_unsigned (type : CstType) (unsigned : type.unsigned = true) :
    subrangeOf type = none := by
  unfold subrangeOf
  rw [if_neg, if_neg]
  · rintro rfl
    cases unsigned
  · rintro rfl
    cases unsigned

def chainHooks : TypeHooks := hooksOf subrangeOf hasValue_subrangeOf subrangeOf_unsigned

def hundredCst (value : Int) : Option Cst := some { type := uptoHundred, value := value }

/-- `(unsigned) ((int) exp - 50) <= 10` -/
def overflowingCheck : Check :=
  .compare .le
    (.convert (unsignedVersion intType)
      (.minus intType (.convert intType (.exp uptoHundred)) { type := intType, value := 50 }))
    { type := unsignedVersion intType, value := 10 }

/-- The least value of a subrange of a subrange of `int` is tested by a difference that
overflows `int`. -/
theorem buildRangeCheck_overflows :
    let range : Range := { inP := true, low := hundredCst 50, high := hundredCst 60 }
    range.Testable chainHooks uptoHundred false ∧ uptoHundred.HasValue (-2147483648) ∧
      ∃ check, buildRangeCheck chainHooks intType false false range.inP (.exp uptoHundred) range.low
          range.high = some check ∧
        ¬ check.Decides false (-2147483648) (range.Holds (-2147483648)) := by
  have inBase : ∀ x : Int, uptoHundred.HasValue x → InBase chainHooks uptoHundred x :=
    fun x hasValue => InBase.of_hasValue hasValue
  refine ⟨⟨?_, ?_, ?_, fun isSame => by cases isSame⟩, ⟨by decide, by decide⟩,
    overflowingCheck, ?_, ?_⟩
  · rintro _ ⟨⟩
    exact ⟨rfl, inBase 50 ⟨by decide, by decide⟩⟩
  · rintro _ ⟨⟩
    exact ⟨rfl, inBase 60 ⟨by decide, by decide⟩⟩
  · rintro ⟨_, ⟨⟩, _, ⟨⟩, less⟩
    exact absurd less (by decide)
  · decide
  · rintro ⟨b, value, _⟩
    have noValue : overflowingCheck.eval false (-2147483648) = none := by decide
    rw [noValue] at value
    cases value

end Examples

end GccCil.Gcc.RangeTest
