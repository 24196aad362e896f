import GccCil.Lib.TwosComplement

/-!
# The types of the SCIL front end

The primitive type nodes of `scil-builtins.c`, the mapping of `get_stack`
(`scil-evalstack.c`) from a type to the family of stack variables that carries
it, and the signedness hooks of `scil-hooks.c`.
-/

namespace GccCil.Scil

open GccCil.Lib

/-- The integer type nodes made by `build_integer_nodes`. -/
inductive IntType where
  | int8 | int16 | int32 | int64
  | uint8 | uint16 | uint32 | uint64
  | bool | char
  deriving DecidableEq, Repr

namespace IntType

/-- `TYPE_PRECISION`; the node of `bool` is made with 8 bits and then narrowed. -/
def precision : IntType → Nat
  | int8 | uint8 => 8
  | int16 | uint16 | char => 16
  | int32 | uint32 => 32
  | int64 | uint64 => 64
  | bool => 1

/-- `TYPE_UNSIGNED`; `scil_char_type` comes from `make_signed_type (16)`. -/
def unsigned : IntType → Bool
  | uint8 | uint16 | uint32 | uint64 | bool => true
  | int8 | int16 | int32 | int64 | char => false

def wrap (type : IntType) (x : Int) : Int := Lib.wrap type.unsigned type.precision x

/-- `x` is a value of the type. -/
def Holds (type : IntType) (x : Int) : Prop := InRange type.unsigned type.precision x

instance (type : IntType) (x : Int) : Decidable (type.Holds x) :=
  inferInstanceAs (Decidable (InRange type.unsigned type.precision x))

theorem precision_pos (type : IntType) : 0 < type.precision := by
  cases type <;> decide

theorem wrap_holds (type : IntType) (x : Int) : type.Holds (type.wrap x) :=
  wrap_inRange type.precision_pos type.unsigned x

theorem wrap_eq_self_iff (type : IntType) (x : Int) : type.wrap x = x ↔ type.Holds x :=
  Lib.wrap_eq_self_iff type.precision_pos type.unsigned x

theorem wrap_of_holds {type : IntType} {x : Int} (holds : type.Holds x) :
    type.wrap x = x :=
  (type.wrap_eq_self_iff x).mpr holds

end IntType

/-- A type node as far as the evaluation stack tells them apart.  Every
`POINTER_TYPE` is one case: `get_stack` only asks `POINTER_TYPE_P`. -/
inductive Ty where
  | int (type : IntType)
  | float32
  | float64
  | pointer
  | record (id : Nat)
  deriving DecidableEq, Repr

/-- What the front end reads from the target description. -/
structure Target where
  pointerSize : Nat

def target32 : Target where
  pointerSize := 32

/-- `TYPE_PRECISION` of any type node; a record has none. -/
def Ty.precision (target : Target) : Ty → Nat
  | .int type => type.precision
  | .float32 => 32
  | .float64 => 64
  | .pointer => target.pointerSize
  | .record _ => 0

/-- `TREE_CODE (type) == INTEGER_TYPE`; the node of `bool` is a `BOOLEAN_TYPE`. -/
def Ty.isIntegerType : Ty → Bool
  | .int .bool => false
  | .int _ => true
  | _ => false

/-- The typed stacks of `scil-evalstack.c`. -/
inductive StackClass where
  | int8 | int16 | int32 | int64 | float | address
  | valuetype (type : Ty)
  deriving DecidableEq, Repr

def getStack : Ty → StackClass
  | .int .int32 | .int .uint32 => .int32
  | .pointer => .address
  | .int .int8 | .int .bool | .int .uint8 => .int8
  | .int .int16 | .int .char | .int .uint16 => .int16
  | .int .int64 | .int .uint64 => .int64
  | .float32 | .float64 => .float
  | .record id => .valuetype (.record id)

/-- The type given to a new variable of the family (`scil_init_stacks`). -/
def StackClass.type : StackClass → Ty
  | .int8 => .int .int8
  | .int16 => .int .int16
  | .int32 => .int .int32
  | .int64 => .int .int64
  | .float => .float64
  | .address => .pointer
  | .valuetype type => type

/-- The type of the variable that a value of this type is copied to. -/
def stackType (type : Ty) : Ty := (getStack type).type

@[simp]
theorem getStack_stackType (type : Ty) : getStack (stackType type) = getStack type := by
  cases type with
  | int type => cases type <;> rfl
  | _ => rfl

inductive TrackedInt where
  | int8 | int16 | int32 | int64
  deriving DecidableEq, Repr

def TrackedInt.type : TrackedInt → IntType
  | .int8 => .int8
  | .int16 => .int16
  | .int32 => .int32
  | .int64 => .int64

/-- The tracked type that `get_stack` picks for an integer type: the signed
type of the same storage size. -/
def IntType.tracked : IntType → TrackedInt
  | .int8 | .uint8 | .bool => .int8
  | .int16 | .uint16 | .char => .int16
  | .int32 | .uint32 => .int32
  | .int64 | .uint64 => .int64

theorem stackType_int (type : IntType) : stackType (.int type) = .int type.tracked.type := by
  cases type <;> rfl

@[simp]
theorem TrackedInt.tracked_type (type : TrackedInt) : type.type.tracked = type := by
  cases type <;> rfl

@[simp]
theorem TrackedInt.unsigned_type (type : TrackedInt) : type.type.unsigned = false := by
  cases type <;> rfl

theorem TrackedInt.holds_mono {narrow wide : TrackedInt}
    (le : narrow.type.precision ≤ wide.type.precision) {x : Int}
    (holds : narrow.type.Holds x) : wide.type.Holds x := by
  unfold IntType.Holds at holds ⊢
  rw [TrackedInt.unsigned_type] at holds ⊢
  exact inRange_signed_mono le holds

/-- `scil_hook_unsigned_type`; `none` is the `sorry` of the other precisions. -/
def scilHookUnsignedType (target : Target) (type : Ty) : Option IntType :=
  match type.precision target with
  | 8 => some .uint8
  | 16 => some .uint16
  | 32 => some .uint32
  | 64 => some .uint64
  | _ => none

end GccCil.Scil
