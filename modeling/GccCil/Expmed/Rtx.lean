import Mathlib.Data.Nat.Bitwise
import GccCil.Lib.TwosComplement

/-!
# Emitted arithmetic

The expressions over one register that `expmed.c` emits for an operation by a
constant, and their value in a mode of `size` bits.  Every step is computed
modulo `2 ^ size`; a shift by `size` bits or more has no value.
-/

namespace GccCil.Expmed

/-- The register `op0`, constants and the operations on them. -/
inductive Rtx where
  | op0
  | constInt (value : Int)
  | plus (left right : Rtx)
  | minus (left right : Rtx)
  | xor (left right : Rtx)
  | neg (operand : Rtx)
  | ashift (operand : Rtx) (count : Nat)
  | lshiftrt (operand : Rtx) (count : Nat)
  | ashiftrt (operand : Rtx) (count : Nat)
  /-- the upper half of the unsigned or the signed product -/
  | highpart (unsignedp : Bool) (left right : Rtx)
  deriving DecidableEq, Repr

/-- The upper half of a product of two `size`-bit values. -/
def highpart {size : Nat} (unsignedp : Bool) (left right : BitVec size) : BitVec size :=
  if unsignedp then BitVec.ofNat size (left.toNat * right.toNat / 2 ^ size)
  else BitVec.ofInt size (left.toInt * right.toInt / (2 ^ size : Nat))

/-- The value of an expression when `op0` holds `x`. -/
def Rtx.eval {size : Nat} (x : BitVec size) : Rtx → Option (BitVec size)
  | .op0 => some x
  | .constInt value => some (BitVec.ofInt size value)
  | .plus left right => do return (← left.eval x) + (← right.eval x)
  | .minus left right => do return (← left.eval x) - (← right.eval x)
  | .xor left right => do return (← left.eval x) ^^^ (← right.eval x)
  | .neg operand => do return -(← operand.eval x)
  | .ashift operand count =>
    if count < size then do return (← operand.eval x) <<< count else none
  | .lshiftrt operand count =>
    if count < size then do return (← operand.eval x) >>> count else none
  | .ashiftrt operand count =>
    if count < size then do return (← operand.eval x).sshiftRight count else none
  | .highpart unsignedp left right => do
      return Expmed.highpart unsignedp (← left.eval x) (← right.eval x)

/-- `expand_shift` with `RSHIFT_EXPR`. -/
def expandShiftRight (shifted : Rtx) (amount : Nat) (unsignedp : Bool) : Rtx :=
  if unsignedp then .lshiftrt shifted amount else .ashiftrt shifted amount

/-- The largest `y` with `2 ^ y ≤ x`; `-1` for zero. -/
def floorLog2 (x : Nat) : Int := if x = 0 then -1 else Nat.log2 x

/-- `INTVAL (GEN_INT (x))`: the bits of `x` read as a signed `HOST_WIDE_INT`. -/
def genInt (host : Nat) (x : Nat) : Int := Lib.wrap false host x

/-- The bits of a `HOST_WIDE_INT` read as an unsigned one. -/
def toUnsigned (host : Nat) (x : Int) : Nat := (x % (2 ^ host : Nat)).toNat

section Constants

variable {host size : Nat}

theorem ofInt_genInt (narrow : size ≤ host) (x : Nat) :
    BitVec.ofInt size (genInt host x) = BitVec.ofNat size x := by
  apply BitVec.eq_of_toInt_eq
  rw [BitVec.toInt_ofInt, ← BitVec.ofInt_natCast, BitVec.toInt_ofInt]
  exact Lib.wrap_wrap_of_le narrow false false x

theorem toUnsigned_genInt {x : Nat} (fits : x < 2 ^ host) :
    toUnsigned host (genInt host x) = x := by
  have same : Lib.wrap true host (Lib.wrap false host x) = x := by
    rw [Lib.wrap_wrap_of_le le_rfl]
    apply Lib.wrap_eq_of_inRange
    rw [Lib.inRange_unsigned]
    exact ⟨Int.natCast_nonneg x, by exact_mod_cast fits⟩
  rw [Lib.wrap_unsigned] at same
  rw [toUnsigned, genInt, same, Int.toNat_natCast]

end Constants

/-- What `expand_divmod` asks of the target: its costs, its word size, and code
for the upper half of a product.  `expand_mult_highpart` returns 0 when no code
is cheap enough; what it returns computes the upper half. -/
structure Target (size : Nat) where
  bitsPerWord : Nat
  addCost : Int
  shiftCost : Nat → Int
  maxCost : Int
  expandMultHighpart : Rtx → Int → Bool → Int → Option Rtx
  computesHighpart : ∀ operand multiplier unsignedp cost result,
    expandMultHighpart operand multiplier unsignedp cost = some result →
      ∀ x value : BitVec size, operand.eval x = some value →
        result.eval x = some (highpart unsignedp value (BitVec.ofInt size multiplier))

/-- A target with a multiplication for the upper half at no cost. -/
def Target.multiplying (size bitsPerWord : Nat) : Target size where
  bitsPerWord := bitsPerWord
  addCost := 0
  shiftCost := fun _ => 0
  maxCost := 0
  expandMultHighpart := fun operand multiplier unsignedp _ =>
    some (.highpart unsignedp operand (.constInt multiplier))
  computesHighpart := by
    intro operand multiplier unsignedp cost result expanded x value evaluated
    cases expanded
    simp [Rtx.eval, evaluated]

end GccCil.Expmed
