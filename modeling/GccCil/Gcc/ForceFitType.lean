import GccCil.Gcc.IntConstBinop

/-!
# What `force_fit_type` returns

The constant that `force_fit_type` returns and the overflow flag that it sets,
for all that it is told about overflow.
-/

namespace GccCil.Gcc.FoldConst

open GccCil.Lib DoubleInt

variable {w : Nat}

def CstType.read (type : CstType) (x : DoubleInt w) : Int := x.value (!type.signExtended)

def CstType.Extended (type : CstType) (x : DoubleInt w) : Prop :=
  InRange (!type.signExtended) type.precision (type.read x)

/-- "OVERFLOWABLE indicates if we are interested in overflow of the value, when >0 we are only
interested in signed overflow, for <0 we are interested in any overflow." -/
def CstType.Interested (type : CstType) (overflowable : Int) : Prop :=
  overflowable < 0 ∨ 0 < overflowable ∧ type.signExtended = true

/-- The value, which stays when it is forced again, and the overflow flag. -/
structure Forced (t : IntCst w) (overflowable : Int) (overflowed : Bool) (forced : IntCst w) :
    Prop where
  value : ∀ v : DoubleInt w, v = forced.int ↔
    t.type.read v ≡ t.type.read t.int [ZMOD (2 ^ t.type.precision : Nat)] ∧ t.type.Extended v
  again : ∀ overflowable, forceFitType forced overflowable false false = forced
  overflow : forced.overflow = true ↔
    overflowed = true ∨ forced.int ≠ t.int ∧ t.type.Interested overflowable

theorem inRange_of_le {unsigned : Bool} {v w : Nat} (narrower : v ≤ w) {x : Int}
    (fits : InRange unsigned v x) : InRange unsigned w x := by
  cases unsigned with
  | false => exact inRange_signed_mono narrower fits
  | true =>
    rw [inRange_unsigned] at fits ⊢
    have : 2 ^ v ≤ 2 ^ w := Nat.pow_le_pow_right (by omega) narrower
    omega

section Value

variable {type : CstType} (positive : 0 < w) (narrow : type.precision ≤ 2 * w)
include positive narrow

theorem read_fitBits (x : DoubleInt w) :
    type.read (fitBits type x) = wrap (!type.signExtended) type.precision (type.read x) := by
  have inWords := inRange_of_le narrow
    (wrap_inRange type.positive (!type.signExtended) (x.toNat : Int))
  rw [fitBits_eq, CstType.read, value_ofInt_of_inRange positive inWords]
  exact wrap_congr _ (modEq_of_le narrow (value_modEq _ x).symm)

theorem eq_fitBits_iff (x v : DoubleInt w) :
    v = fitBits type x ↔
      type.read v ≡ type.read x [ZMOD (2 ^ type.precision : Nat)] ∧ type.Extended v := by
  constructor
  · rintro rfl
    rw [CstType.Extended, read_fitBits positive narrow]
    exact ⟨wrap_modEq _ _ _, wrap_inRange type.positive _ _⟩
  · rintro ⟨congruent, extended⟩
    have same : type.read v = type.read (fitBits type x) := by
      rw [read_fitBits positive narrow]
      exact eq_of_modEq_of_inRange extended (wrap_inRange type.positive _ _)
        (congruent.trans (wrap_modEq _ _ _).symm)
    have stored := congrArg (ofInt w) same
    rwa [CstType.read, CstType.read, ofInt_value, ofInt_value] at stored

theorem fitBits_eq_self_iff (x : DoubleInt w) : fitBits type x = x ↔ type.Extended x := by
  rw [eq_comm, eq_fitBits_iff positive narrow]
  exact and_iff_right rfl

end Value

theorem forceFitType_self {t : IntCst w} (fits : fitBits t.type t.int = t.int)
    (overflowable : Int) : forceFitType t overflowable false false = t := by
  unfold forceFitType
  dsimp only
  rw [fits, bne_self_eq_false]
  rfl

theorem forceFitType_overflow (t : IntCst w) (overflowable : Int)
    (overflowed overflowedConst : Bool) :
    (forceFitType t overflowable overflowed overflowedConst).overflow = true ↔
      if overflowed = true ∨ overflowedConst = true ∨ fitBits t.type t.int ≠ t.int then
        overflowed = true ∨ t.type.Interested overflowable
      else t.overflow = true := by
  unfold forceFitType
  dsimp only
  by_cases entered : overflowed = true ∨ overflowedConst = true ∨ fitBits t.type t.int ≠ t.int
  · have guard : (overflowed || overflowedConst || fitBits t.type t.int != t.int) = true := by
      simpa [or_assoc] using entered
    rw [if_pos guard, if_pos entered]
    split
    · next flagged =>
        refine iff_of_true rfl ?_
        simpa [or_assoc, CstType.Interested] using flagged
    · next clear =>
        refine iff_of_false Bool.false_ne_true fun flagged => clear ?_
        simpa [or_assoc, CstType.Interested] using flagged
  · have guard : ¬ (overflowed || overflowedConst || fitBits t.type t.int != t.int) = true := by
      simpa [or_assoc] using entered
    rw [if_neg guard, if_neg entered]

/-- The function returns what it promises unless the value fits as it is, no overflow has
occurred, and a constant overflow is passed where overflow is of interest or, without one, the
constant has the flag already. -/
theorem forceFitType_forced_iff (positive : 0 < w) (t : IntCst w)
    (narrow : t.type.precision ≤ 2 * w) (overflowable : Int) (overflowed overflowedConst : Bool) :
    Forced t overflowable overflowed (forceFitType t overflowable overflowed overflowedConst) ↔
      overflowed = true ∨ ¬ t.type.Extended t.int ∨
        if overflowedConst then ¬ t.type.Interested overflowable else t.overflow = false := by
  have flag := forceFitType_overflow t overflowable overflowed overflowedConst
  rw [← fitBits_eq_self_iff positive narrow]
  constructor
  · rintro ⟨-, -, overflow⟩
    rw [flag, forceFitType_int] at overflow
    by_cases given : overflowed = true
    · exact Or.inl given
    by_cases fits : fitBits t.type t.int = t.int
    · refine Or.inr (Or.inr ?_)
      cases overflowedConst with
      | true => simpa [given, fits] using overflow
      | false => simpa [given, fits] using overflow
    · exact Or.inr (Or.inl fits)
  · intro condition
    refine ⟨fun v => ?_, fun again => ?_, ?_⟩
    · rw [forceFitType_int]
      exact eq_fitBits_iff positive narrow t.int v
    · apply forceFitType_self
      rw [forceFitType_type, forceFitType_int, fitBits_eq_self_iff positive narrow]
      exact ((eq_fitBits_iff positive narrow t.int _).mp rfl).2
    · rw [flag, forceFitType_int]
      by_cases given : overflowed = true
      · simp [given]
      by_cases fits : fitBits t.type t.int = t.int
      · have rest := (condition.resolve_left given).resolve_left (not_not.mpr fits)
        cases overflowedConst with
        | true => simpa [given, fits] using rest
        | false => simpa [given, fits] using rest
      · simp [given, fits]

section Examples

theorem forceFitType_forced_iff_int :
    Forced (intCst 7) 1 true (forceFitType (intCst 7) 1 true false) ↔
      true = true ∨ ¬ (intCst 7).type.Extended (intCst 7).int ∨
        if false then ¬ (intCst 7).type.Interested 1 else (intCst 7).overflow = false :=
  forceFitType_forced_iff (show 0 < 2 * 32 by decide) (intCst 7) (show 32 ≤ 2 * (2 * 32) by decide)
    1 true false

/-- The sum of constants one of which has overflowed as a constant only. -/
theorem forceFitType_flags_unchanged :
    (forceFitType (intCst 7) 1 false true).int = (intCst 7).int ∧
      (forceFitType (intCst 7) 1 false true).overflow = true ∧
      ¬ Forced (intCst 7) 1 false (forceFitType (intCst 7) 1 false true) := by
  have same : (forceFitType (intCst 7) 1 false true).int = (intCst 7).int := by decide
  have flagged : (forceFitType (intCst 7) 1 false true).overflow = true := by decide
  refine ⟨same, flagged, fun forced => ?_⟩
  rcases forced.overflow.mp flagged with given | ⟨changed, -⟩
  · exact Bool.false_ne_true given
  · exact changed same

end Examples

end GccCil.Gcc.FoldConst
